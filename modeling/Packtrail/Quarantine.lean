import Packtrail.Dispatchers

/-
# Quarantine

`internal/dispatch/quarantine.go`: a decision that can never be dispatched puts its execution in quarantine. A mark in the
index names the first such decision; while it stands, dispatchers acknowledge the decisions of the execution without
running their effects. `Replay` runs the effects of everything from the mark on, lifts the mark, and goes over the log a
second time for what was skipped meanwhile.

| here | there |
| --- | --- |
| `Duty`, `take` to `ack`      | `handle`, `skip`, `handleQuarantined`, `quarantine` (`dispatch.go:108-162`, `quarantine.go:74-207`) |
| `Ward.mark`                  | the value of `q.<exec>` (`internal/projection/projection.go:196-222`) |
| `Scan`                       | `ScanDecisions`, batch by batch (`internal/eventlog/eventlog.go:172-264`) |
| `Replaying`, `replay` to `finish` | `Replay`, `replayFrom` (`quarantine.go:299-355`) |

Every read and write is a step of its own: any number of dispatchers and replays interleave. A dispatcher may not have heard
of a mark (the broadcast is best effort), and a decision can be in the hands of several of them, since one that is not
acknowledged in time is delivered again. Decisions are delivered in order, one at a time.

**`quarantine_loses_nothing`**: once the mark is gone and no replay is in its second pass, every acknowledged decision has had
its effects run. Three things are left out, and each breaks it: a second pass that fails is not taken up again, since the mark
is gone (`failed_pass_loses_effects`); a dispatcher that cannot read the mark after a failure writes its own over it; and an
engine that continues a quarantined execution as new may purge what was skipped.
-/

namespace Packtrail

open Transition

/-- What a dispatcher does with a decision. -/
inductive Duty
  | idle
  | taken (m : Message)
  /-- It is to be dispatched. -/
  | process (m : Message)
  | failed (m : Message)
  /-- It quarantines the execution: there was no mark yet. -/
  | marking (m : Message)
  /-- It is acknowledged without its effects. -/
  | skip (m : Message)
  /-- Its effects have run. -/
  | done (m : Message)

/-- A scan of the log: where it goes on, and the last sequence of the batch read. -/
structure Scan where
  next : Nat
  bound : Option Nat := none

inductive Replaying
  | idle
  | first (s : Scan)
  /-- The mark is lifted. -/
  | second (s : Scan)

structure Ward where
  world : World := {}
  mark : Option Nat := none
  duties : Nat → Duty := fun _ => .idle
  replays : Nat → Replaying := fun _ => .idle
  /-- The decisions whose effects have run. -/
  ran : List Message := []
  acked : List Message := []
  /-- The redispatch commands acknowledged: a replay has returned without an error. -/
  answered : Nat := 0

inductive WardAction
  /-- An engine takes a step. -/
  | work (act : Action)
  | take (i : Nat) (m : Message)
  /-- `skip`: a dispatcher that has heard of the quarantine reads the mark. -/
  | look (i : Nat) (known : Bool)
  | run (i : Nat)
  | fail (i : Nat)
  /-- After a failure that retries cannot mend the mark is read again, if it can be. -/
  | recheck (i : Nat) (read : Bool)
  | mark (i : Nat)
  | ack (i : Nat)
  /-- The decision is delivered again: a failure that passes, or a crash. -/
  | retry (i : Nat)
  | replay (r : Nat)
  | read (r : Nat)
  | apply (r : Nat)
  | lift (r : Nat)
  | finish (r : Nat)
  | abort (r : Nat)

/-- What a scan has still to hand out of the batch it has read. -/
def Scan.pending (s : Scan) (live : List Message) : List Message :=
  live.filter fun m => s.next ≤ m.seq && s.bound.any fun b => m.seq ≤ b

/-- The batch is handed out and there was no more. -/
def Scan.ended (s : Scan) (live : List Message) : Bool := s.bound.isSome && (s.pending live).isEmpty

namespace Ward

variable (c : Setup) (q : Ward)

def setDuty (i : Nat) (d : Duty) : Ward := { q with duties := fun j => if j = i then d else q.duties j }

def setReplay (r : Nat) (p : Replaying) : Ward := { q with replays := fun j => if j = r then p else q.replays j }

def look (i : Nat) (known : Bool) : Option Ward :=
  match q.duties i with
  | .taken m => some (q.setDuty i (if known && q.mark.isSome then .skip m else .process m))
  | _ => none

def run (i : Nat) : Option Ward :=
  match q.duties i with
  | .process m => some { q.setDuty i (.done m) with ran := m :: q.ran }
  | _ => none

def fail (i : Nat) : Option Ward :=
  match q.duties i with
  | .process m => some (q.setDuty i (.failed m))
  | _ => none

/-- Another dispatcher may have quarantined the execution meanwhile. -/
def recheck (i : Nat) (read : Bool) : Option Ward :=
  match q.duties i with
  | .failed m => some (q.setDuty i (if read && q.mark.isSome then .skip m else .marking m))
  | _ => none

/-- `quarantine`: the decision it fails at is acknowledged, too. -/
def quarantine (i : Nat) : Option Ward :=
  match q.duties i with
  | .marking m => some { q.setDuty i (.skip m) with mark := some m.seq }
  | _ => none

def ack (i : Nat) : Option Ward :=
  match q.duties i with
  | .skip m | .done m => some { q.setDuty i .idle with acked := m :: q.acked }
  | _ => none

/-- `Replay` begins at the mark. Without one there is nothing to do. -/
def replay (r : Nat) : Option Ward :=
  match q.replays r, q.mark with
  | .idle, some k => some (q.setReplay r (.first ⟨max k 1, none⟩))
  | .idle, none => some { q with answered := q.answered + 1 }
  | _, _ => none

def read (r : Nat) : Option Ward :=
  match q.replays r with
  | .first s => some (q.setReplay r (.first { s with bound := some q.world.store.lastSeq }))
  | .second s => some (q.setReplay r (.second { s with bound := some q.world.store.lastSeq }))
  | .idle => none

/-- The next decision of the scan is dispatched. -/
def apply (r : Nat) : Option Ward :=
  match q.replays r with
  | .first s => (s.pending q.world.store.live).head?.map fun m =>
    { q.setReplay r (.first { s with next := m.seq + 1 }) with ran := m :: q.ran }
  | .second s => (s.pending q.world.store.live).head?.map fun m =>
    { q.setReplay r (.second { s with next := m.seq + 1 }) with ran := m :: q.ran }
  | .idle => none

/-- `Unquarantine`; the second pass goes on where the first one ended. -/
def lift (r : Nat) : Option Ward :=
  match q.replays r with
  | .first s => if s.ended q.world.store.live then some { q.setReplay r (.second ⟨s.next, none⟩) with mark := none } else none
  | _ => none

def finish (r : Nat) : Option Ward :=
  match q.replays r with
  | .second s => if s.ended q.world.store.live then some { q.setReplay r .idle with answered := q.answered + 1 } else none
  | _ => none

def step : WardAction → Option Ward
  | .work act => (q.world.step c act).map fun w => { q with world := w }
  | .take i m =>
    match q.duties i with
    | .idle => some (q.setDuty i (.taken m))
    | _ => none
  | .look i known => q.look i known
  | .run i => q.run i
  | .fail i => q.fail i
  | .recheck i read => q.recheck i read
  | .mark i => q.quarantine i
  | .ack i => q.ack i
  | .retry i => some (q.setDuty i .idle)
  | .replay r => q.replay r
  | .read r => q.read r
  | .apply r => q.apply r
  | .lift r => q.lift r
  | .finish r => q.finish r
  | .abort r => some (q.setReplay r .idle)

end Ward

/-- The decision is delivered: everything before it has been acknowledged. -/
def Ward.Delivered (q : Ward) (m : Message) : Prop :=
  m ∈ q.world.hist ∧ ∀ m' ∈ q.world.hist, m'.seq < m.seq → m' ∈ q.acked

/-- An engine purges up to the ack floor of the dispatchers' consumer. -/
def Ward.Purges (q : Ward) : Action → Prop
  | .purge _ floor => ∀ m ∈ q.world.hist, m.seq ≤ floor → m ∈ q.acked
  | _ => True

structure WardStep (c : Setup) (q : Ward) (a : WardAction) (q' : Ward) : Prop where
  work : ∀ act, a = .work act → Step c World.Fresh q.world act q'.world ∧ q.Purges act
  delivered : ∀ i m, a = .take i m → q.Delivered m
  next : q.step c a = some q'

/-- What was skipped is not purged. -/
def Ward.SparesSkipped (q : Ward) : Action → Prop
  | .purge _ floor => ∀ m ∈ q.acked, m.seq ≤ floor → m ∈ q.ran
  | _ => True

/-- The log is not purged whole, and none of what would break quarantine happens. -/
def WardOk (q : Ward) : WardAction → Prop
  | .work act => q.world.clears act = false ∧ q.SparesSkipped act
  | .recheck _ read => read = true
  | .abort r => ∀ s, q.replays r ≠ .second s
  | _ => True

/-! ## What is owed to a decision -/

/-- A second pass will come to it. -/
def Ward.Covered (q : Ward) (m : Message) : Prop :=
  ∃ r s, q.replays r = .second s ∧ s.next ≤ m.seq ∧ ∀ b, s.bound = some b → m.seq ≤ b

def Ward.Settled (q : Ward) (m : Message) : Prop := m ∈ q.ran ∨ q.Covered m

/-- It may be acknowledged: it is settled, or a replay of the mark has to come to it. -/
def Ward.Safe (q : Ward) (m : Message) : Prop := q.Settled m ∨ ∃ k, q.mark = some k ∧ k ≤ m.seq

/-- Everything before `k` is settled. -/
def Ward.Cleared (q : Ward) (k : Nat) : Prop :=
  (∃ m ∈ q.world.hist, k ≤ m.seq + 1) ∧ ∀ m ∈ q.world.hist, m.seq < k → q.Settled m

def Duty.Sound (q : Ward) : Duty → Prop
  | .idle => True
  | .taken m | .process m | .failed m => q.Delivered m
  | .marking m => q.Delivered m ∧ q.Cleared m.seq
  | .skip m => q.Delivered m ∧ q.Safe m
  | .done m => q.Delivered m ∧ m ∈ q.ran

def Replaying.Sound (q : Ward) : Replaying → Prop
  | .first s => q.Cleared s.next
  | _ => True

/-- **What every run keeps.** -/
structure Ward.Sound (c : Setup) (q : Ward) : Prop where
  current : q.world.Current c
  duty : ∀ i, (q.duties i).Sound q
  replay : ∀ r, (q.replays r).Sound q
  mark : ∀ k, q.mark = some k → q.Cleared k
  acked : ∀ m ∈ q.acked, m ∈ q.world.hist ∧ q.Safe m
  kept : ∀ m ∈ q.world.hist, m ∈ q.world.store.live ∨ m ∈ q.ran

/-- The order in which a ward moves on: nothing that was settled or safe is lost. -/
structure Ward.Advances (q q' : Ward) : Prop where
  hist : ∀ m ∈ q.world.hist, m ∈ q'.world.hist
  later : ∀ m' ∈ q'.world.hist, m' ∈ q.world.hist ∨ ∀ m ∈ q.world.hist, m.seq < m'.seq
  acked : ∀ m ∈ q.acked, m ∈ q'.acked
  ran : ∀ m ∈ q.ran, m ∈ q'.ran
  settled : ∀ m ∈ q.world.hist, q.Settled m → q'.Settled m
  safe : ∀ m ∈ q.world.hist, q.Safe m → q'.Safe m

section
variable {c : Setup} {q q' : Ward}

variable {m : Message} {d : Duty} {p : Replaying} {i r : Nat} {s : Scan}

theorem Ward.Advances.delivered (h : q.Advances q') (hm : q.Delivered m) : q'.Delivered m := by
  refine ⟨h.hist m hm.1, fun m' hm' hlt => ?_⟩
  rcases h.later m' hm' with hold | hlate
  · exact h.acked m' (hm.2 m' hold hlt)
  · have := hlate m hm.1
    omega

theorem Ward.Advances.cleared (h : q.Advances q') {k : Nat} (hk : q.Cleared k) : q'.Cleared k := by
  obtain ⟨⟨m₀, hm₀, hle⟩, hall⟩ := hk
  refine ⟨⟨m₀, h.hist m₀ hm₀, hle⟩, fun m hm hlt => ?_⟩
  rcases h.later m hm with hold | hlate
  · exact h.settled m hold (hall m hold hlt)
  · have := hlate m₀ hm₀
    omega

theorem Ward.Advances.duty (h : q.Advances q') (hd : d.Sound q) : d.Sound q' := by
  cases d with
  | idle => trivial
  | taken m => exact h.delivered hd
  | process m => exact h.delivered hd
  | failed m => exact h.delivered hd
  | marking m => exact ⟨h.delivered hd.1, h.cleared hd.2⟩
  | skip m => exact ⟨h.delivered hd.1, h.safe m hd.1.1 hd.2⟩
  | done m => exact ⟨h.delivered hd.1, h.ran m hd.2⟩

theorem Ward.Advances.replay (h : q.Advances q') (hp : p.Sound q) : p.Sound q' := by
  cases p with
  | idle => trivial
  | first s => exact h.cleared hp
  | second s => trivial

theorem Ward.setDuty_duties {j : Nat} : (q.setDuty i d).duties j = if j = i then d else q.duties j := rfl

/-- Effects may run and decisions be acknowledged; replays, mark and log stay. -/
theorem Ward.Advances.of_grows (hworld : q'.world = q.world) (hmark : q'.mark = q.mark) (hreplays : q'.replays = q.replays)
    (hran : ∀ m ∈ q.ran, m ∈ q'.ran) (hacked : ∀ m ∈ q.acked, m ∈ q'.acked) : q.Advances q' := by
  have hsettled : ∀ m, q.Settled m → q'.Settled m := by
    intro m hm
    rcases hm with hm | ⟨r, s, hr, hs⟩
    · exact .inl (hran m hm)
    · exact .inr ⟨r, s, by rw [hreplays]; exact hr, hs⟩
  refine ⟨fun m hm => by rw [hworld]; exact hm, fun m hm => .inl (by rw [← hworld]; exact hm), hacked, hran,
    fun m _ => hsettled m, fun m _ hm => ?_⟩
  rcases hm with hm | ⟨k, hk, hle⟩
  · exact .inl (hsettled m hm)
  · exact .inr ⟨k, hmark.trans hk, hle⟩

theorem Ward.setReplay_replays {j : Nat} : (q.setReplay r p).replays j = if j = r then p else q.replays j := rfl

/-- A replay takes a step: what it covered is covered or has run. -/
theorem Ward.Advances.of_replay (ran : List Message) (mark : Option Nat) (hran : ∀ m ∈ q.ran, m ∈ ran)
    (hcover : ∀ s, q.replays r = .second s → ∀ m ∈ q.world.hist, s.next ≤ m.seq → (∀ b, s.bound = some b → m.seq ≤ b) →
    m ∈ ran ∨ ∃ t, p = .second t ∧ t.next ≤ m.seq ∧ ∀ b, t.bound = some b → m.seq ≤ b)
    (hmark : ∀ m ∈ q.world.hist, (∃ k, q.mark = some k ∧ k ≤ m.seq) → ({ q.setReplay r p with ran, mark } : Ward).Safe m) :
    q.Advances { q.setReplay r p with ran, mark } := by
  have hsettled : ∀ m ∈ q.world.hist, q.Settled m → ({ q.setReplay r p with ran, mark } : Ward).Settled m := by
    intro m hm hset
    rcases hset with hset | ⟨j, s, hj, hle, hb⟩
    · exact .inl (hran m hset)
    · by_cases hjr : j = r
      · subst hjr
        rcases hcover s hj m hm hle hb with hnew | ⟨t, rfl, ht⟩
        · exact .inl hnew
        · exact .inr ⟨j, t, by simp [Ward.setReplay_replays], ht⟩
      · exact .inr ⟨j, s, by simp [Ward.setReplay_replays, hjr, hj], hle, hb⟩
  refine ⟨fun _ hm => hm, fun _ hm => .inl hm, fun _ hm => hm, hran, hsettled, fun m hm hsafe => ?_⟩
  rcases hsafe with hset | hk
  · exact .inl (hsettled m hm hset)
  · exact hmark m hm hk

/-- A replay that is not in its second pass covers nothing. -/
theorem Ward.not_second (hr : q.replays r = p) (hp : ∀ s, p ≠ .second s) {C : Scan → Prop} :
    ∀ s, q.replays r = .second s → C s :=
  fun s hs => absurd (hr.symm.trans hs) (hp s)

theorem Scan.mem_pending {live : List Message} :
    m ∈ s.pending live ↔ m ∈ live ∧ s.next ≤ m.seq ∧ ∃ b, s.bound = some b ∧ m.seq ≤ b := by
  unfold Scan.pending
  cases s.bound <;> simp

/-- The next decision is the first one that is left. -/
theorem Scan.head_pending {live : List Message} (hsorted : live.Pairwise fun a b => a.seq < b.seq)
    (h : (s.pending live).head? = some m) : m ∈ s.pending live ∧ ∀ m' ∈ s.pending live, m' = m ∨ m.seq < m'.seq := by
  have hpair : (s.pending live).Pairwise fun a b => a.seq < b.seq := hsorted.sublist List.filter_sublist
  cases hp : s.pending live with
  | nil =>
    rw [hp] at h
    cases h
  | cons m₀ rest =>
    rw [hp] at h hpair
    cases h
    refine ⟨List.mem_cons_self, fun m' hm' => ?_⟩
    rcases List.mem_cons.1 hm' with rfl | hrest
    · exact .inl rfl
    · exact .inr ((List.pairwise_cons.1 hpair).1 m' hrest)

variable (h : q.Sound c)

include h

/-- A step advances; what is new in it has to be shown. -/
theorem Ward.Sound.advance (ha : q.Advances q') (hcurrent : q'.world.Current c)
    (hduty : ∀ i, q'.duties i = q.duties i ∨ (q'.duties i).Sound q')
    (hreplay : ∀ r, q'.replays r = q.replays r ∨ (q'.replays r).Sound q')
    (hmark : ∀ k, q'.mark = some k → q.mark = some k ∨ q'.Cleared k)
    (hacked : ∀ m ∈ q'.acked, m ∈ q.acked ∨ m ∈ q'.world.hist ∧ q'.Safe m)
    (hkept : ∀ m ∈ q'.world.hist, m ∈ q'.world.store.live ∨ m ∈ q'.ran) : q'.Sound c := by
  refine ⟨hcurrent, fun i => ?_, fun r => ?_, fun k hk => ?_, fun m hm => ?_, hkept⟩
  · rcases hduty i with hsame | hnew
    · rw [hsame]
      exact ha.duty (h.duty i)
    · exact hnew
  · rcases hreplay r with hsame | hnew
    · rw [hsame]
      exact ha.replay (h.replay r)
    · exact hnew
  · rcases hmark k hk with hsame | hnew
    · exact ha.cleared (h.mark k hsame)
    · exact hnew
  · rcases hacked m hm with hold | hnew
    · obtain ⟨hhist, hsafe⟩ := h.acked m hold
      exact ⟨ha.hist m hhist, ha.safe m hhist hsafe⟩
    · exact hnew

/-! ## The steps of a dispatcher -/

/-- A step of dispatcher `i` that leaves mark and replays alone. -/
theorem Ward.Sound.serve (ran acked : List Message) (hran : ∀ m ∈ q.ran, m ∈ ran)
    (hacked : ∀ m ∈ q.acked, m ∈ acked) (hd : d.Sound { q.setDuty i d with ran, acked })
    (hnew : ∀ m ∈ acked, m ∈ q.acked ∨ m ∈ q.world.hist ∧ q.Safe m) : ({ q.setDuty i d with ran, acked } : Ward).Sound c := by
  have ha : q.Advances { q.setDuty i d with ran, acked } := .of_grows rfl rfl rfl hran hacked
  refine h.advance ha h.current (fun j => ?_) (fun r => .inl rfl) (fun k hk => .inl hk) (fun m hm => ?_) (fun m hm => ?_)
  · by_cases hj : j = i
    · right
      simp only [Ward.setDuty_duties, hj, if_true]
      exact hd
    · left
      simp [Ward.setDuty_duties, hj]
  · rcases hnew m hm with hold | ⟨hhist, hsafe⟩
    · exact .inl hold
    · exact .inr ⟨hhist, ha.safe m hhist hsafe⟩
  · rcases h.kept m hm with hlive | hr
    · exact .inl hlive
    · exact .inr (hran m hr)

/-- A dispatcher only changes what it is doing. -/
theorem Ward.Sound.turn (hd : d.Sound q) : (q.setDuty i d).Sound c := by
  have ha : q.Advances (q.setDuty i d) := .of_grows rfl rfl rfl (fun _ hm => hm) (fun _ hm => hm)
  exact h.serve q.ran q.acked (fun _ hm => hm) (fun _ hm => hm) (ha.duty hd) (fun m hm => .inl hm)

/-- Under a mark a delivered decision can be skipped: what is before the mark is settled. -/
theorem Ward.Sound.safe_of_mark (hm : q.Delivered m) (hmark : q.mark.isSome = true) : q.Safe m := by
  obtain ⟨k, hk⟩ := Option.isSome_iff_exists.1 hmark
  by_cases hle : k ≤ m.seq
  · exact .inr ⟨k, hk, hle⟩
  · exact .inl ((h.mark k hk).2 m hm.1 (by omega))

/-- Without a mark everything before a delivered decision is settled. -/
theorem Ward.Sound.cleared_of_delivered (hm : q.Delivered m) (hmark : q.mark = none) : q.Cleared m.seq := by
  refine ⟨⟨m, hm.1, by omega⟩, fun m' hm' hlt => ?_⟩
  rcases (h.acked m' (hm.2 m' hm' hlt)).2 with hsettled | ⟨k, hk, -⟩
  · exact hsettled
  · rw [hmark] at hk
    cases hk

theorem Ward.Sound.answer {n : Nat} : ({ q with answered := n } : Ward).Sound c :=
  ⟨h.current, h.duty, h.replay, h.mark, h.acked, h.kept⟩

theorem Ward.Sound.at_duty (hd : q.duties i = d) : d.Sound q := hd ▸ h.duty i

theorem Ward.Sound.look {known : Bool} (hs : q.look i known = some q') : q'.Sound c := by
  unfold Ward.look at hs
  split at hs <;> cases hs
  rename_i m hm
  have hdel : q.Delivered m := h.at_duty hm
  by_cases hskip : (known && q.mark.isSome) = true
  · rw [if_pos hskip]
    simp only [Bool.and_eq_true] at hskip
    exact h.turn ⟨hdel, h.safe_of_mark hdel hskip.2⟩
  · rw [if_neg hskip]
    exact h.turn hdel

theorem Ward.Sound.run (hs : q.run i = some q') : q'.Sound c := by
  unfold Ward.run at hs
  split at hs <;> cases hs
  rename_i m hm
  have hdel : q.Delivered m := h.at_duty hm
  exact h.serve (m :: q.ran) q.acked (fun _ hm' => List.mem_cons_of_mem _ hm') (fun _ hm' => hm') ⟨hdel, List.mem_cons_self⟩
    (fun m' hm' => .inl hm')

theorem Ward.Sound.fail (hs : q.fail i = some q') : q'.Sound c := by
  unfold Ward.fail at hs
  split at hs <;> cases hs
  rename_i m hm
  have hdel : q.Delivered m := h.at_duty hm
  exact h.turn hdel

theorem Ward.Sound.recheck (hs : q.recheck i true = some q') : q'.Sound c := by
  unfold Ward.recheck at hs
  split at hs <;> cases hs
  rename_i m hm
  have hdel : q.Delivered m := h.at_duty hm
  cases hmark : q.mark with
  | none => exact h.turn ⟨hdel, h.cleared_of_delivered hdel hmark⟩
  | some k => exact h.turn ⟨hdel, h.safe_of_mark hdel (by rw [hmark]; rfl)⟩

theorem Ward.Sound.ack (hs : q.ack i = some q') : q'.Sound c := by
  have hack : ∀ m, q.Delivered m → q.Safe m → ({ q.setDuty i .idle with acked := m :: q.acked } : Ward).Sound c := by
    intro m hdel hsafe
    refine h.serve q.ran (m :: q.acked) (fun _ hm' => hm') (fun _ hm' => List.mem_cons_of_mem _ hm') trivial (fun m' hm' => ?_)
    rcases List.mem_cons.1 hm' with rfl | hold
    · exact .inr ⟨hdel.1, hsafe⟩
    · exact .inl hold
  unfold Ward.ack at hs
  split at hs <;> cases hs
  · rename_i m hm
    obtain ⟨hdel, hsafe⟩ : (Duty.skip m).Sound q := h.at_duty hm
    exact hack m hdel hsafe
  · rename_i m hm
    obtain ⟨hdel, hran⟩ : (Duty.done m).Sound q := h.at_duty hm
    exact hack m hdel (.inl (.inl hran))

/-- The mark is written; one that another dispatcher has written meanwhile is overwritten. -/
theorem Ward.Sound.quarantine (hs : q.quarantine i = some q') : q'.Sound c := by
  unfold Ward.quarantine at hs
  split at hs <;> cases hs
  rename_i m hm
  obtain ⟨hdel, hcleared⟩ : (Duty.marking m).Sound q := h.at_duty hm
  have ha : q.Advances { q.setDuty i (.skip m) with mark := some m.seq } := by
    refine ⟨fun _ hm' => hm', fun _ hm' => .inl hm', fun _ hm' => hm', fun _ hm' => hm', fun _ _ hset => hset, fun m' hm' hsafe => ?_⟩
    rcases hsafe with hset | ⟨k, -, -⟩
    · exact .inl hset
    · by_cases hle : m.seq ≤ m'.seq
      · exact .inr ⟨m.seq, rfl, hle⟩
      · exact .inl (hcleared.2 m' hm' (by omega))
  refine h.advance ha h.current (fun j => ?_) (fun r => .inl rfl) (fun k hk => ?_) (fun m' hm' => .inl hm') h.kept
  · by_cases hj : j = i
    · right
      simp only [Ward.setDuty_duties, hj, if_true]
      exact ⟨ha.delivered hdel, .inr ⟨m.seq, rfl, le_rfl⟩⟩
    · left
      simp [Ward.setDuty_duties, hj]
  · cases hk
    exact .inr (ha.cleared hcleared)

/-! ## The steps of a replay -/

theorem Ward.Sound.rescan (ran : List Message) (mark : Option Nat)
    (ha : q.Advances { q.setReplay r p with ran, mark }) (hp : p.Sound { q.setReplay r p with ran, mark })
    (hmark : ∀ k, mark = some k → q.mark = some k) : ({ q.setReplay r p with ran, mark } : Ward).Sound c := by
  refine h.advance ha h.current (fun i => .inl rfl) (fun j => ?_) (fun k hk => .inl (hmark k hk)) (fun m hm => .inl hm) (fun m hm => ?_)
  · by_cases hj : j = r
    · right
      simp only [Ward.setReplay_replays, hj, if_true]
      exact hp
    · left
      simp [Ward.setReplay_replays, hj]
  · rcases h.kept m hm with hlive | hr
    · exact .inl hlive
    · exact .inr (ha.ran m hr)

/-- A replay takes a step that leaves the mark. -/
theorem Ward.Sound.scan (ran : List Message) (hran : ∀ m ∈ q.ran, m ∈ ran)
    (hcover : ∀ s, q.replays r = .second s → ∀ m ∈ q.world.hist, s.next ≤ m.seq → (∀ b, s.bound = some b → m.seq ≤ b) →
    m ∈ ran ∨ ∃ t, p = .second t ∧ t.next ≤ m.seq ∧ ∀ b, t.bound = some b → m.seq ≤ b)
    (hp : q.Advances { q.setReplay r p with ran } → p.Sound { q.setReplay r p with ran }) : ({ q.setReplay r p with ran } : Ward).Sound c := by
  have ha : q.Advances { q.setReplay r p with ran } := .of_replay ran q.mark hran hcover fun _ _ hk => .inr hk
  exact h.rescan ran q.mark ha (hp ha) fun _ hk => hk

theorem Ward.Sound.live_sorted (wf : WellFormed c.fl) : q.world.store.live.Pairwise fun a b => a.seq < b.seq := by
  obtain ⟨k, hlive, -⟩ := h.current.sound.live
  rw [hlive]
  exact (h.current.sound.written.sorted wf).1.sublist List.filter_sublist

/-- What a scan passes over by dispatching a decision has run. -/
theorem Ward.Sound.passed (wf : WellFormed c.fl) {m' : Message}
    (hhead : (s.pending q.world.store.live).head? = some m) (hm' : m' ∈ q.world.hist) (hge : s.next ≤ m'.seq) (hle : m'.seq ≤ m.seq) :
    m' ∈ m :: q.ran := by
  obtain ⟨hm, hfirst⟩ := Scan.head_pending (h.live_sorted wf) hhead
  rcases h.kept m' hm' with hlive | hran
  · obtain ⟨-, -, b, hb, hmb⟩ := Scan.mem_pending.1 hm
    rcases hfirst m' (Scan.mem_pending.2 ⟨hlive, hge, b, hb, by omega⟩) with rfl | hlt
    · exact List.mem_cons_self
    · omega
  · exact List.mem_cons_of_mem _ hran

/-- What a scan that has ended was to go over has run. -/
theorem Ward.Sound.exhausted (hended : s.ended q.world.store.live = true) (hm : m ∈ q.world.hist)
    (hge : s.next ≤ m.seq) (hle : ∀ b, s.bound = some b → m.seq ≤ b) : m ∈ q.ran := by
  unfold Scan.ended at hended
  simp only [Bool.and_eq_true, List.isEmpty_iff] at hended
  obtain ⟨hbound, hnone⟩ := hended
  obtain ⟨b, hb⟩ := Option.isSome_iff_exists.1 hbound
  rcases h.kept m hm with hlive | hran
  · have hmem := Scan.mem_pending.2 ⟨hlive, hge, b, hb, hle b hb⟩
    rw [hnone] at hmem
    cases hmem
  · exact hran

theorem Ward.Sound.begin (wf : WellFormed c.fl) (hs : q.replay r = some q') : q'.Sound c := by
  unfold Ward.replay at hs
  split at hs <;> cases hs
  case h_2 => exact h.answer
  rename_i k hidle hmark
  refine h.scan q.ran (fun _ hm => hm) (Ward.not_second hidle fun _ => Replaying.noConfusion) fun ha => ha.cleared ?_
  obtain ⟨⟨m₀, hm₀, hle⟩, hall⟩ := h.mark k hmark
  refine ⟨⟨m₀, hm₀, by simp only; omega⟩, fun m hm hlt => hall m hm ?_⟩
  -- sequences begin at one
  have hpos := ((h.current.sound.written.sorted wf).2 m hm).1
  simp only at hlt
  omega

/-- The batch a scan reads has everything the log has. -/
theorem Ward.Sound.read_batch (wf : WellFormed c.fl) (hs : q.read r = some q') : q'.Sound c := by
  have hreplay := h.replay r
  unfold Ward.read at hs
  split at hs <;> cases hs
  · rename_i s hr
    rw [hr] at hreplay
    exact h.scan q.ran (fun _ hm => hm) (Ward.not_second hr fun _ => Replaying.noConfusion) fun ha => ha.cleared hreplay
  · rename_i s hr
    refine h.scan q.ran (fun _ hm => hm) (fun t ht m hm hge _ => .inr ⟨_, rfl, ?_, fun b hb => ?_⟩) fun _ => trivial
    · cases hr.symm.trans ht
      exact hge
    · cases hb
      have hlast : q.world.store.lastSeq = headSeq q.world.hist := h.current.sound.lastSeq wf
      rw [hlast]
      exact ((h.current.sound.written.sorted wf).2 m hm).2

theorem Ward.Sound.apply (wf : WellFormed c.fl) (hs : q.apply r = some q') : q'.Sound c := by
  have hreplay := h.replay r
  unfold Ward.apply at hs
  split at hs
  · rename_i s hr
    obtain ⟨m, hhead, rfl⟩ := Option.map_eq_some_iff.1 hs
    rw [hr] at hreplay
    refine h.scan (m :: q.ran) (fun _ hm => List.mem_cons_of_mem _ hm) (Ward.not_second hr fun _ => Replaying.noConfusion) fun ha => ?_
    have hm := (Scan.mem_pending.1 (Scan.head_pending (h.live_sorted wf) hhead).1).1
    refine ⟨⟨m, h.current.sound.live.subset hm, le_rfl⟩, fun m' hm' hlt => ?_⟩
    by_cases hge : s.next ≤ m'.seq
    · exact .inl (h.passed wf hhead hm' hge (by simp only at hlt; omega))
    · exact ha.settled m' hm' (hreplay.2 m' hm' (by omega))
  · rename_i s hr
    obtain ⟨m, hhead, rfl⟩ := Option.map_eq_some_iff.1 hs
    refine h.scan (m :: q.ran) (fun _ hm => List.mem_cons_of_mem _ hm) (fun t ht m' hm' hge hb => ?_) fun _ => trivial
    cases hr.symm.trans ht
    by_cases hle : m'.seq ≤ m.seq
    · exact .inl (h.passed wf hhead hm' hge hle)
    · exact .inr ⟨_, rfl, by simp only; omega, hb⟩
  · cases hs

/-- Once the mark is lifted everything has run or is left to the second pass. -/
theorem Ward.Sound.lift (hs : q.lift r = some q') : q'.Sound c := by
  have hreplay := h.replay r
  unfold Ward.lift at hs
  split at hs
  · rename_i s hr
    split at hs <;> cases hs
    rw [hr] at hreplay
    have ha : q.Advances { q.setReplay r (.second ⟨s.next, none⟩) with mark := none } := by
      refine .of_replay q.ran none (fun _ hm => hm) (Ward.not_second hr fun _ => Replaying.noConfusion) (fun m hm _ => .inl ?_)
      by_cases hge : s.next ≤ m.seq
      · exact .inr ⟨r, ⟨s.next, none⟩, by simp [Ward.setReplay_replays], hge, fun b hb => by cases hb⟩
      · rcases hreplay.2 m hm (by omega) with hran | ⟨j, t, hj, ht⟩
        · exact .inl hran
        · have hjr : j ≠ r := by
            rintro rfl
            cases hr.symm.trans hj
          exact .inr ⟨j, t, by simp [Ward.setReplay_replays, hjr, hj], ht⟩
    exact h.rescan q.ran none ha trivial (fun k hk => by cases hk)
  · cases hs

theorem Ward.Sound.finish (hs : q.finish r = some q') : q'.Sound c := by
  unfold Ward.finish at hs
  split at hs
  · rename_i s hr
    split at hs <;> cases hs
    rename_i hended
    have hidle : (q.setReplay r .idle).Sound c := by
      refine h.scan q.ran (fun _ hm => hm) (fun t ht m hm hge hb => .inl ?_) fun _ => trivial
      cases hr.symm.trans ht
      exact h.exhausted hended hm hge hb
    exact hidle.answer
  · cases hs

theorem Ward.Sound.abort (hfirst : ∀ s, q.replays r ≠ .second s) : (q.setReplay r .idle).Sound c :=
  h.scan q.ran (fun _ hm => hm) (fun t ht => absurd ht (hfirst t)) fun _ => trivial

/-! ## The steps of an engine -/

/-- The log grows, or loses what has run. -/
theorem Ward.Sound.work (wf : WellFormed c.fl) {act : Action} (hok : q.world.clears act = false ∧ q.SparesSkipped act)
    {w : World} (hs : Step c World.Fresh q.world act w) (hpurge : q.Purges act) : ({ q with world := w } : Ward).Sound c := by
  obtain ⟨hclear, hspares⟩ := hok
  have hcurrent := h.current.step wf hclear hs
  have hdoes := World.step_does hclear hs.next
  have hlater : ∀ m' ∈ w.hist, m' ∈ q.world.hist ∨ ∀ m ∈ q.world.hist, m.seq < m'.seq := by
    intro m' hm'
    cases hdoes.log with
    | same hist live top => exact .inl (hist ▸ hm')
    | purged i floor seq hact hist live top => exact .inl (hist ▸ hm')
    | stored m₀ hist live top =>
      have hsorted := (hcurrent.sound.written.sorted wf).1
      rw [hist] at hm' hsorted
      rcases List.mem_append.1 hm' with hold | hnew
      · exact .inl hold
      · exact .inr fun m hm => (List.pairwise_append.1 hsorted).2.2 m hm m' hnew
  have ha : q.Advances { q with world := w } :=
    ⟨fun m hm => hdoes.grows.subset hm, hlater, fun _ hm => hm, fun _ hm => hm, fun _ _ hset => hset, fun _ _ hsafe => hsafe⟩
  refine h.advance ha hcurrent (fun i => .inl rfl) (fun r => .inl rfl) (fun k hk => .inl hk) (fun m hm => .inl hm) (fun m hm => ?_)
  refine hdoes.kept h.kept (fun i floor hact m hm hle => ?_) hm
  subst hact
  exact hspares m (hpurge m hm hle) hle

/-- **Every step keeps what is owed.** -/
theorem Ward.Sound.step (wf : WellFormed c.fl) {a : WardAction} (hok : WardOk q a) (hs : WardStep c q a q') : q'.Sound c := by
  have hnext := hs.next
  cases a with
  | work act =>
    obtain ⟨hstep, hpurge⟩ := hs.work act rfl
    obtain ⟨w, hw, rfl⟩ := Option.map_eq_some_iff.1 hnext
    exact h.work wf hok hstep hpurge
  | take i m =>
    simp only [Ward.step] at hnext
    split at hnext
    · cases hnext
      exact h.turn (hs.delivered i m rfl)
    · cases hnext
  | look i known => exact h.look hnext
  | run i => exact h.run hnext
  | fail i => exact h.fail hnext
  | recheck i read =>
    obtain rfl : read = true := hok
    exact h.recheck hnext
  | mark i => exact h.quarantine hnext
  | ack i => exact h.ack hnext
  | retry i =>
    cases hnext
    exact h.turn trivial
  | replay r => exact h.begin wf hnext
  | read r => exact h.read_batch wf hnext
  | apply r => exact h.apply wf hnext
  | lift r => exact h.lift hnext
  | finish r => exact h.finish hnext
  | abort r =>
    cases hnext
    exact h.abort hok

omit h in
theorem Ward.Sound.init (c : Setup) : Ward.Sound c {} :=
  ⟨⟨.init, rfl⟩, fun _ => trivial, fun _ => trivial, fun _ hk => (by cases hk), fun _ hm => (by cases hm), fun _ hm => (by cases hm)⟩

end

def WardAction.reading (q : Ward) : WardAction → WardAction
  | .work act => .work (act.reading q.world.store)
  | .take i m => .take i (q.world.message m.seq)
  | a => a

/-- There is one replay, and nothing happens that would break quarantine. -/
def WardAction.isPlain (q : Ward) : WardAction → Bool
  | .work act => act.isPlain && !act.frees
  | .take _ m => q.world.has m.seq && q.world.hist.all fun m' => m.seq ≤ m'.seq || q.acked.any fun a => a.seq == m'.seq
  | .replay r | .read r | .apply r | .lift r | .finish r => r == 0
  | .recheck _ done => done
  | .abort _ => false
  | _ => true

def Ward.play (c : Setup) (q : Ward) (a : WardAction) : Option Ward := if a.isPlain q then q.step c (a.reading q) else none

section
variable {c : Setup} {q q' : Ward} {a : WardAction}

theorem WardAction.isPlain.step (wf : WellFormed c.fl) (h : q.Sound c) (ha : a.isPlain q = true) (hn : q.step c (a.reading q) = some q') :
    WardOk q (a.reading q) ∧ WardStep c q (a.reading q) q' := by
  cases a with
  | work act =>
    simp only [WardAction.isPlain, Bool.and_eq_true, Bool.not_eq_true'] at ha
    obtain ⟨hplain, hfree⟩ := ha
    obtain ⟨w, hw, rfl⟩ := Option.map_eq_some_iff.1 hn
    have hpurges : q.SparesSkipped (act.reading q.world.store) ∧ q.Purges (act.reading q.world.store) := by
      cases act <;> first | exact ⟨trivial, trivial⟩ | cases hplain
    refine ⟨⟨World.not_clears ?_, hpurges.1⟩, fun act' he => ?_, fun _ _ he => (by cases he), hn⟩
    · cases act <;> first | rfl | cases hfree
    · cases he
      exact ⟨Action.isPlain.step hplain hw, hpurges.2⟩
  | take i m =>
    refine ⟨trivial, fun _ he => (by cases he), fun _ _ he => ?_, hn⟩
    cases he
    simp only [WardAction.isPlain, Bool.and_eq_true, List.all_eq_true, Bool.or_eq_true, decide_eq_true_eq, List.any_eq_true, beq_iff_eq] at ha
    obtain ⟨hmem, hseq⟩ := World.message_mem ha.1
    refine ⟨hmem, fun m' hm' hlt => ?_⟩
    obtain ⟨a, hack, hsame⟩ := (ha.2 m' hm').resolve_left (by omega)
    rwa [← h.current.sound.written.eq_of_seq wf (h.acked a hack).1 hm' hsame]
  | abort => cases ha
  | recheck => exact ⟨ha, fun _ he => (by cases he), fun _ _ he => (by cases he), hn⟩
  | _ => exact ⟨trivial, fun _ he => (by cases he), fun _ _ he => (by cases he), hn⟩

/-- Only replay 0 moves. -/
theorem WardAction.isPlain.others (ha : a.isPlain q = true) (hn : q.step c (a.reading q) = some q') {r : Nat} (hr : r ≠ 0) :
    q'.replays r = q.replays r := by
  have hset : ∀ p, (q.setReplay 0 p).replays r = q.replays r := fun p => if_neg hr
  cases a with
  | work act =>
    obtain ⟨w, -, rfl⟩ := Option.map_eq_some_iff.1 hn
    rfl
  | retry i => cases hn; rfl
  | abort => cases ha
  | take | look | run | fail | recheck | mark | ack =>
    simp only [WardAction.reading, Ward.step, Ward.look, Ward.run, Ward.fail, Ward.recheck, Ward.quarantine, Ward.ack] at hn
    split at hn <;> cases hn <;> rfl
  | replay j | read j | lift j | finish j =>
    obtain rfl : j = 0 := beq_iff_eq.1 ha
    simp only [WardAction.reading, Ward.step, Ward.replay, Ward.read, Ward.lift, Ward.finish] at hn
    repeat' split at hn
    all_goals cases hn
    all_goals first | exact hset _ | rfl
  | apply j =>
    obtain rfl : j = 0 := beq_iff_eq.1 ha
    simp only [WardAction.reading, Ward.step, Ward.apply] at hn
    split at hn
    · obtain ⟨m, -, rfl⟩ := Option.map_eq_some_iff.1 hn
      exact hset _
    · obtain ⟨m, -, rfl⟩ := Option.map_eq_some_iff.1 hn
      exact hset _
    · cases hn

theorem Ward.run_of_play (wf : WellFormed c.fl) {ok : Ward → WardAction → Prop} (hok : ∀ u a, WardOk u a → ok u a) {as : List WardAction}
    (hexec : exec (Ward.play c) {} as = some q) : Run (WardStep c) ok {} q ∧ ∀ r, r ≠ 0 → q.replays r = .idle := by
  have hrefl : Run (WardStep c) ok {} {} := .refl
  refine (hrefl.of_exec_invariant (I := fun u : Ward => u.Sound c ∧ ∀ r, r ≠ 0 → u.replays r = .idle)
    ⟨.init c, fun _ _ => rfl⟩ (fun a _ u u' hu hn => ?_) hexec).imp_right And.right
  unfold Ward.play at hn
  split at hn
  · rename_i ha
    obtain ⟨hwok, hstep⟩ := WardAction.isPlain.step wf hu.1 ha hn
    exact ⟨⟨hu.1.step wf hwok hstep, fun r hr => (WardAction.isPlain.others ha hn hr).trans (hu.2 r hr)⟩, _, hok u _ hwok, hstep⟩
  · cases hn

end

end Packtrail
