import Packtrail.Work
import Packtrail.Decide

/-
# What every emitted event promises

The decider keeps to a discipline that the events of a log show: an event that settles an attempt
settles the scheduled one, a new run takes the next number, completion finds nothing open.
`Promise fl base s ev` states it for event `ev` emitted in state `s`. `base` is the number up to which
a fork inherited its counter (0 for a started execution): attempts above it were scheduled in the
execution's own log. `Packtrail.Walk` shows that every decision keeps the promise; everything said
about logs (`Packtrail.Trace`) follows from it alone.

`Work.Sound` is what the promise keeps invariant at every single event: keys, numbers and attempt
counts (`Work.Sound.step`).
-/

namespace Packtrail

open Emitter

structure Open.Idle (o : Open) : Prop where
  tasks : o.tasks = ∅
  fans : o.fans = ∅
  maps : o.maps = ∅
  awaits : o.awaits = ∅
  children : o.children = ∅

namespace Open.Idle

variable {o : Open} (h : o.Idle) {k : String}
include h

theorem no_task {t : Task} (hget : o.tasks[k]? = some t) : False := by
  rw [h.tasks, get_empty] at hget
  cases hget

theorem no_child {ch : ChildState} (hget : o.children[k]? = some ch) : False := by
  rw [h.children, get_empty] at hget
  cases hget

theorem no_await {a : AwaitState} (hget : o.awaits[k]? = some a) : False := by
  rw [h.awaits, get_empty] at hget
  cases hget

end Open.Idle

namespace Work

/-- Attempt `a` of generation `g` is the one scheduled at `key`, and not an inherited one. -/
def Attempting (base : Nat) (w : Work) (key : String) (g a : Nat) : Prop :=
  ∃ t, w.tasks[key]? = some t ∧ t.status = .scheduled ∧ t.generation = g ∧ t.attempt = a ∧ base < g

/-- A first attempt takes the next number; what it replaces is settled or inherited. -/
def FreshRun (base : Nat) (w : Work) (d : Event.Scheduled) : Prop :=
  d.attempt = 1 ∧ d.generation = w.n + 1 ∧
    ∀ t, w.tasks[d.key]? = some t → t.status = .scheduled → t.generation ≤ base

/-- A retry is the next attempt of the generation waiting for it. -/
def RetryRun (base : Nat) (w : Work) (d : Event.Scheduled) : Prop :=
  ∃ t, w.tasks[d.key]? = some t ∧ t.status = .retrying ∧ d.generation = t.generation ∧
    d.attempt = t.attempt + 1 ∧ base < t.generation

/-- A child takes the place of no other, except of one a fork inherited. -/
def ReplacesInherited (base : Nat) (w : Work) (d : Event.Child) : Prop :=
  ∀ ch, w.children[d.instanceKey]? = some ch → ∃ m ≤ base, Numbered ch.childID m

/-- Every open child was started in this log. -/
def OwnChildren (base : Nat) (w : Work) : Prop :=
  ∀ {k : String} {ch}, w.children[k]? = some ch → ∃ m, base < m ∧ Numbered ch.childID m

structure TaskOk (fl : Flow) (n : Nat) (k : String) (t : Task) : Prop where
  key : t.key = k
  one_le : 1 ≤ t.generation
  le : t.generation ≤ n
  attempt : 1 ≤ t.attempt
  node : ∃ nd, fl.node t.node = some nd ∧ (t.attempt : Int) ≤ nd.maxAttempts ∧
    (t.status = .retrying → (t.attempt : Int) < nd.maxAttempts)

structure Sound (fl : Flow) (w : Work) : Prop where
  task : ∀ {k : String} {t}, w.tasks[k]? = some t → TaskOk fl w.n k t
  timer : ∀ {id : String} {tm}, w.timers[id]? = some tm → tm.id = id ∧ id = timerID tm.n ∧ tm.n ≤ w.n
  child : ∀ {k : String} {ch}, w.children[k]? = some ch → ∃ m ≤ w.n, Numbered ch.childID m
  distinct : ∀ {k k' : String} {ch ch'}, w.children[k]? = some ch → w.children[k']? = some ch' →
    ch.childID = ch'.childID → k = k'

end Work

/-- The work of an execution that does not exist yet. -/
def Work.none : Work := (State.new "").work

/-- What an event's payload promises about the state it is emitted in. -/
def Offer (fl : Flow) (base : Nat) (s : State) : Payload → Prop
  | .started _ => base = 0 ∧ s.work = .none
  | .forked d => base = (unmarshal d.state).n ∧ (s.work.step (.forked d)).Sound fl ∧
      ((unmarshal d.state).status.terminal = true ∧ (s.work.step (.forked d)).Idle ∨
        (unmarshal d.state).status = .running ∨ (unmarshal d.state).status = .waiting)
  | .continued d => ∃ seg q, d.state = ({ s.encoded with segments := s.segments ++ [seg], lastSeq := q } : State).marshal
  | .completed _ => s.work.Idle
  | .scheduled d => (s.work.FreshRun base d ∨ s.work.RetryRun base d) ∧
      ∃ nd, fl.node d.node = some nd ∧ (d.attempt : Int) ≤ nd.maxAttempts
  | .nodeDone d => s.work.Attempting base d.key d.generation d.attempt
  | .nodeFail d => s.work.Attempting base d.key d.generation d.attempt ∧ (d.willRetry = true →
      ∀ t, s.tasks[d.key]? = some t → ∃ nd, fl.node t.node = some nd ∧ (t.attempt : Int) < nd.maxAttempts)
  | .interrupted d => ∃ a, s.work.Attempting base d.key d.generation a
  | .nodeCancel d => ∃ t, s.tasks[d.key]? = some t
  | .child d => d.childN = s.n + 1 ∧ Numbered d.childID d.childN ∧ s.work.ReplacesInherited base d
  | .childDone d => ∃ ch, s.children[d.instanceKey]? = some ch ∧ ch.childID = d.childID
  | .timer d => d.n = s.n + 1 ∧ d.id = timerID d.n
  | .join d => (s.fans[d.fanout]?).isSome = true ∧ d.cancelChildren = ownedChildren s d.fanout
  | .mapDone d => ∀ (k : String) (ch : ChildState), s.children[k]? = some ch → ch.owner ≠ d.node
  | .mapAbort d => d.cancelChildren = ownedChildren s d.node
  | _ => True

/-- The first event of an execution. -/
def Payload.begins : Payload → Bool
  | .started _ | .forked _ => true
  | _ => false

structure Promise (fl : Flow) (base : Nat) (s : State) (ev : Event) : Prop where
  index : ev.index = s.events + 1
  unended : s.status.terminal = false
  begins : ev.data.begins = true ↔ s.events = 0
  offer : Offer fl base s ev.data

/-! ## The numbering is sound at every event -/

namespace Work

variable {fl : Flow} {w w' : Work}

variable {k : String}

theorem TaskOk.le_n {m n : Nat} {t : Task} (h : TaskOk fl m k t) (hn : m ≤ n) : TaskOk fl n k t :=
  ⟨h.key, h.one_le, h.le.trans hn, h.attempt, h.node⟩

variable (h : w.Sound fl)

include h

/-- Dropping work and raising the counter keeps the rest sound. -/
theorem Sound.of_le (hn : w.n ≤ w'.n)
    (ht : ∀ {k : String} {t}, w'.tasks[k]? = some t → w.tasks[k]? = some t)
    (htm : ∀ {k : String} {tm}, w'.timers[k]? = some tm → w.timers[k]? = some tm)
    (hc : ∀ {k : String} {ch}, w'.children[k]? = some ch → w.children[k]? = some ch) : w'.Sound fl where
  task hk := (h.task (ht hk)).le_n hn
  timer hk := by
    obtain ⟨h1, h2, h3⟩ := h.timer (htm hk)
    exact ⟨h1, h2, h3.trans hn⟩
  child hk := by
    obtain ⟨m, hm, hnum⟩ := h.child (hc hk)
    exact ⟨m, hm.trans hn, hnum⟩
  distinct hk hk' := h.distinct (hc hk) (hc hk')

/-- Replacing the task at one key by a sound one. -/
theorem Sound.insert_task {t : Task} {n : Nat} (hn : w.n ≤ n) (ht : TaskOk fl n k t)
    (maps : SMap MapWork) : ({ w with tasks := w.tasks.insert k t, n, maps } : Work).Sound fl where
  task hk := by
    rcases get_of_insert hk with ⟨rfl, rfl⟩ | ⟨-, hk⟩
    · exact ht
    · exact (h.task hk).le_n hn
  timer hk := by
    obtain ⟨h1, h2, h3⟩ := h.timer hk
    exact ⟨h1, h2, h3.trans hn⟩
  child hk := by
    obtain ⟨m, hm, hnum⟩ := h.child hk
    exact ⟨m, hm.trans hn, hnum⟩
  distinct := h.distinct

/-- A sound task at every key that is kept, changed by `f` at one of them. -/
theorem Sound.setStatus {f : Task → Task}
    (hf : ∀ t, w.tasks[k]? = some t → TaskOk fl w.n k (f t)) : (w.setStatus k f).Sound fl := by
  unfold Work.setStatus
  cases ht : w.tasks[k]? with
  | none => exact h
  | some t => exact h.insert_task le_rfl (hf t ht) w.maps

theorem Sound.settle {o : BranchStatus} : (w.settle k o).Sound fl := by
  unfold Work.settle
  cases w.tasks[k]? with
  | none => exact h
  | some t => exact h.of_le le_rfl (fun hk => (get_of_erase hk).2) id id

theorem Sound.finishTask : (w.finishTask k).Sound fl := by
  unfold Work.finishTask
  cases w.tasks[k]? with
  | none => exact h
  | some t =>
    have h' : ({ w with maps := w.countDone t.owner t.node } : Work).Sound fl := h.of_le le_rfl id id id
    exact h'.settle

theorem Sound.schedule {base : Nat} {d : Event.Scheduled}
    (hd : w.FreshRun base d ∨ w.RetryRun base d)
    (hn : ∃ nd, fl.node d.node = some nd ∧ (d.attempt : Int) ≤ nd.maxAttempts) : (w.schedule d).Sound fl := by
  obtain ⟨nd, hnd, hmax⟩ := hn
  have hnode : ∃ nd, fl.node (w.taskOf d).node = some nd ∧ ((w.taskOf d).attempt : Int) ≤ nd.maxAttempts ∧
      ((w.taskOf d).status = .retrying → ((w.taskOf d).attempt : Int) < nd.maxAttempts) :=
    ⟨nd, hnd, hmax, fun hs => by cases hs⟩
  refine h.insert_task (le_max_left _ _) ?_ _
  rcases hd with ⟨ha, hg, -⟩ | ⟨t, ht, -, hg, ha, -⟩
  · exact ⟨rfl, by simp [taskOf, hg], le_max_right _ _, by simp [taskOf, ha], hnode⟩
  · have hok := h.task ht
    exact ⟨rfl, by simpa [taskOf, hg] using hok.one_le, le_max_right _ _, by simp [taskOf, ha], hnode⟩

theorem Sound.closeAwait (node : String) (buffered : List Buffered) :
    ({ w.closeAwait node with buffered } : Work).Sound fl := by
  unfold Work.closeAwait
  cases w.awaits[node]? with
  | none => exact h.of_le le_rfl id id id
  | some a => exact h.of_le le_rfl id (fun hk => (get_of_erase hk).2) id

theorem Sound.startChild {d : Event.Child} (hn : d.childN = w.n + 1)
    (hid : Numbered d.childID d.childN) : (w.startChild d).Sound fl := by
  have hle : w.n ≤ (w.startChild d).n := le_max_left _ _
  have hnew : ∀ {k : String} {ch}, w.children[k]? = some ch → ch.childID ≠ d.childID := by
    intro k ch hk he
    obtain ⟨m, hm, hnum⟩ := h.child hk
    have := (he ▸ hnum).inj hid
    omega
  refine ⟨fun hk => (h.task hk).le_n hle, fun hk => ?_, fun {k ch} hk => ?_, fun {k k' ch ch'} hk hk' he => ?_⟩
  · obtain ⟨h1, h2, h3⟩ := h.timer hk
    exact ⟨h1, h2, h3.trans hle⟩
  · rcases get_of_insert hk with ⟨-, rfl⟩ | ⟨-, hk⟩
    · exact ⟨d.childN, le_max_right _ _, hid⟩
    · obtain ⟨m, hm, hnum⟩ := h.child hk
      exact ⟨m, hm.trans hle, hnum⟩
  · rcases get_of_insert hk with ⟨rfl, rfl⟩ | ⟨-, hk⟩ <;> rcases get_of_insert hk' with ⟨rfl, rfl⟩ | ⟨-, hk'⟩
    · rfl
    · exact absurd he.symm (hnew hk')
    · exact absurd he (hnew hk)
    · exact h.distinct hk hk' he

theorem Sound.finishChild {d : Event.ChildDone} : (w.finishChild d).Sound fl := by
  have h' : ({ w with children := w.children.erase d.instanceKey } : Work).Sound fl :=
    h.of_le le_rfl id id fun hk => (get_of_erase hk).2
  unfold Work.finishChild
  cases w.children[d.instanceKey]? with
  | none => exact h'
  | some c =>
    simp only [Work.settleChild]
    split
    · split
      · exact h'.of_le le_rfl id id id
      · exact h'
    · exact h'.of_le le_rfl id id id

theorem Sound.timer_insert {d : Timer} (hid : d.id = timerID d.n) :
    ({ w with timers := w.timers.insert d.id d, n := max w.n d.n } : Work).Sound fl := by
  have hle : w.n ≤ max w.n d.n := le_max_left _ _
  refine ⟨fun hk => (h.task hk).le_n hle, fun hk => ?_, fun hk => ?_, h.distinct⟩
  · rcases get_of_insert hk with ⟨rfl, rfl⟩ | ⟨-, hk⟩
    · exact ⟨rfl, hid, le_max_right _ _⟩
    · obtain ⟨h1, h2, h3⟩ := h.timer hk
      exact ⟨h1, h2, h3.trans hle⟩
  · obtain ⟨m, hm, hnum⟩ := h.child hk
    exact ⟨m, hm.trans hle, hnum⟩

theorem Sound.closed : w.closed.Sound fl :=
  h.of_le le_rfl (fun hk => by simp [Work.closed] at hk) (fun hk => by simp [Work.closed] at hk)
    fun hk => by simp [Work.closed] at hk

omit h

/-- **What is promised keeps the numbering sound.** -/
theorem Sound.step {base : Nat} {s : State} (h : s.work.Sound fl) {p : Payload} (hp : Offer fl base s p) :
    (s.work.step p).Sound fl := by
  cases p with
  | started d => exact h
  | forked d => exact hp.2.1
  | continued d =>
    obtain ⟨seg, q, hseg⟩ := hp
    have : (unmarshal d.state).work = s.work := by
      rw [hseg]
      exact (State.work_encoded _).trans (State.work_encoded s)
    exact this.symm ▸ h
  | completed d => exact h.closed
  | failed d => exact h.closed
  | cancelled d => exact h.closed
  | entered d => exact h.of_le le_rfl id id id
  | scheduled d => exact h.schedule hp.1 hp.2
  | nodeDone d => exact h.finishTask
  | nodeFail d =>
    show (if d.willRetry then _ else _ : Work).Sound fl
    split
    · rename_i hr
      refine h.setStatus fun t ht => ?_
      have hok := h.task ht
      obtain ⟨nd, hnd, hlt⟩ := hp.2 hr t ht
      exact ⟨hok.key, hok.one_le, hok.le, hok.attempt, nd, hnd, hlt.le, fun _ => hlt⟩
    · exact h.settle
  | interrupted d =>
    refine h.setStatus fun t ht => ?_
    have hok := h.task ht
    obtain ⟨nd, hnd, hle, -⟩ := hok.node
    exact ⟨hok.key, hok.one_le, hok.le, hok.attempt, nd, hnd, hle, fun hs => by cases hs⟩
  | nodeCancel d => exact h.settle
  | choice d => exact h
  | fanout d => exact h.of_le le_rfl id id id
  | join d =>
    show (Work.closeFan _ _).Sound fl
    unfold Work.closeFan
    cases s.work.fans[d.fanout]? with
    | none => exact h.of_le le_rfl id id id
    | some f => exact h.of_le le_rfl id id fun hk => (get_of_filter hk).1
  | await d => exact h.of_le le_rfl id id id
  | awaitTimeout d => exact h.closeAwait _ s.work.buffered
  | signal d => exact h.of_le le_rfl id id id
  | signalUse d => exact h.closeAwait _ _
  | update d => exact h
  | map d => exact h.of_le le_rfl id id id
  | mapDone d => exact h.of_le le_rfl id id id
  | mapAbort d => exact h.of_le le_rfl id id fun hk => (get_of_filter hk).1
  | child d => exact h.startChild hp.1 hp.2.1
  | childDone d => exact h.finishChild
  | timer d => exact h.timer_insert hp.2
  | fired d => exact h.of_le le_rfl id (fun hk => (get_of_erase hk).2) id

end Work

/-! ## Existence and status -/

namespace State

/-- An execution that exists and has not finished. -/
structure Live (s : State) : Prop where
  begun : 0 < s.events
  status : s.status = .running ∨ s.status = .waiting

/-- A finished execution: nothing is open. -/
structure Ended (s : State) : Prop where
  begun : 0 < s.events
  status : s.status.terminal = true
  idle : s.work.Idle

variable {s : State}

theorem Live.unended (h : s.Live) : s.status.terminal = false := by
  rcases h.status with h | h <;> rw [h] <;> rfl

theorem Live.exists (h : s.Live) : s.exists = true := by simpa [State.exists] using h.begun

theorem recomputeStatus_live (s : State) : s.recomputeStatus = .running ∨ s.recomputeStatus = .waiting := by
  unfold recomputeStatus
  split
  · exact .inl rfl
  · split
    · exact .inl rfl
    · split
      · exact .inr rfl
      · exact .inl rfl

theorem finish_live (ev : Event) (h : s.status = .running ∨ s.status = .waiting) : (s.finish ev).Live := by
  refine ⟨Nat.succ_pos _, ?_⟩
  have hn : ¬(s.status.terminal || s.status = .unset) = true := by
    rcases h with h | h <;> rw [h] <;> simp [Status.terminal]
  simp only [finish, if_neg hn]
  exact recomputeStatus_live s

@[simp] theorem settleTask_status (s : State) (k : String) (o : BranchStatus) : (s.settleTask k o).status = s.status := by
  unfold settleTask
  split <;> rfl

@[simp] theorem settleTask_events (s : State) (k : String) (o : BranchStatus) : (s.settleTask k o).events = s.events := by
  unfold settleTask
  split <;> rfl

@[simp] theorem settleTask_flow (s : State) (k : String) (o : BranchStatus) : (s.settleTask k o).flow = s.flow := by
  unfold settleTask
  split <;> rfl

/-- What no event but the first, a continuation and the last one changes. -/
structure Keeps (s s' : State) : Prop where
  status : s'.status = s.status
  events : s'.events = s.events
  flow : s'.flow = s.flow

theorem recordItem_keeps {s' : State} {owner : String} {m : MapRun} {i : Nat} {out : Raw}
    (h : s.recordItem owner m i out = .ok s') : s.Keeps s' := by
  unfold recordItem at h
  split at h <;> cases h
  exact ⟨rfl, rfl, rfl⟩

theorem recordOutput_keeps {s' : State} {t : Task} {out : Raw} (h : s.recordOutput t out = .ok s') :
    s.Keeps s' := by
  unfold recordOutput at h
  split at h
  · split at h
    · exact recordItem_keeps h
    · cases h; exact ⟨rfl, rfl, rfl⟩
  · cases h; exact ⟨rfl, rfl, rfl⟩

end State

/-- The events that change neither the existence nor the final status of an execution. -/
def Payload.plain : Payload → Bool
  | .started _ | .forked _ | .continued _ | .completed _ | .failed _ | .cancelled _ => false
  | _ => true

namespace State

variable {s s' : State} {quote : String → String} {fl : Flow} {ev : Event}

theorem applyNodeDone_keeps {d : Event.NodeDone}
    (h : s.applyNodeDone quote fl d = .ok s') : s.Keeps s' := by
  obtain ⟨t, channels, s₁, -, -, hr, rfl⟩ := applyNodeDone_steps h
  have hk := recordOutput_keeps hr
  exact ⟨(settleTask_status _ _ _).trans hk.status, (settleTask_events _ _ _).trans hk.events,
    (settleTask_flow _ _ _).trans hk.flow⟩

theorem applyNodeFail_keeps (s : State) (d : Event.NodeFail) :
    s.Keeps (s.applyNodeFail d) := by
  unfold applyNodeFail
  split
  · exact ⟨rfl, rfl, rfl⟩
  · simp only
    split
    · exact ⟨rfl, rfl, rfl⟩
    · exact ⟨settleTask_status _ _ _, settleTask_events _ _ _, settleTask_flow _ _ _⟩

theorem applyChildDone_keeps {d : Event.ChildDone} (h : s.applyChildDone d = .ok s') :
    s.Keeps s' := by
  unfold applyChildDone at h
  simp only at h
  split at h
  · cases h; exact ⟨rfl, rfl, rfl⟩
  · split at h
    · split at h
      · have hk := recordItem_keeps h
        exact ⟨hk.status, hk.events, hk.flow⟩
      · cases h; exact ⟨rfl, rfl, rfl⟩
    · cases h; exact ⟨rfl, rfl, rfl⟩

theorem applyJoin_keeps (s : State) (d : Event.Join) :
    s.Keeps (s.applyJoin d) := by
  unfold applyJoin
  simp only
  split <;> exact ⟨rfl, rfl, rfl⟩

theorem applyData_keeps (hp : ev.data.plain = true)
    (h : s.applyData quote fl ev = .ok s') : s.Keeps s' := by
  unfold applyData at h
  cases hd : ev.data <;> simp only [hd] at h hp
  case nodeDone d => exact applyNodeDone_keeps h
  case nodeFail d => cases h; exact applyNodeFail_keeps s d
  case nodeCancel d => cases h; exact ⟨settleTask_status _ _ _, settleTask_events _ _ _, settleTask_flow _ _ _⟩
  case childDone d => exact applyChildDone_keeps h
  case join d => cases h; exact applyJoin_keeps s d
  case interrupted d => unfold applyInterrupted at h; split at h <;> cases h; exact ⟨rfl, rfl, rfl⟩
  case update d => unfold applyUpdate at h; split at h <;> cases h; exact ⟨rfl, rfl, rfl⟩
  case mapDone d => unfold applyMapDone at h; split at h <;> cases h; exact ⟨rfl, rfl, rfl⟩
  case signalUse d => unfold applySignalUse at h; split at h <;> cases h; exact ⟨rfl, rfl, rfl⟩
  all_goals first | (cases h; exact ⟨rfl, rfl, rfl⟩) | cases hp

/-- `Apply` is the event's own change and the bookkeeping after it, once the index fits. -/
theorem apply_ok :
    s.apply quote fl ev = .ok s' ↔ (ev.index = 0 ∨ ev.index = s.expectedIndex ev) ∧
    ∃ s₁, s.applyData quote fl ev = .ok s₁ ∧ s' = s₁.finish ev := by
  unfold apply
  split
  · rename_i hi
    simp only [false_iff, not_and, reduceCtorEq]
    rintro (h | h)
    · exact absurd h hi.1
    · exact absurd h hi.2
  · rename_i hi
    have : ev.index = 0 ∨ ev.index = s.expectedIndex ev := by tauto
    simp only [this, true_and]
    cases s.applyData quote fl ev with
    | error e => simp [Except.map]
    | ok s₁ => simp [Except.map, eq_comm]

theorem apply_plain (hp : ev.data.plain = true)
    (h : s.apply quote fl ev = .ok s') : s'.events = s.events + 1 ∧ (s.Live → s'.Live) := by
  obtain ⟨-, s₁, hd, rfl⟩ := apply_ok.1 h
  have hk := applyData_keeps hp hd
  exact ⟨congrArg (· + 1) hk.events, fun hl => finish_live ev (hk.status ▸ hl.status)⟩

end State

end Packtrail
