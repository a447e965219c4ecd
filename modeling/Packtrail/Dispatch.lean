import Packtrail.CommandIds
import Packtrail.Fitting
import Packtrail.ResultCache
import Packtrail.Trace

/-
# The effects of events

`internal/dispatch/dispatch.go`: the dispatcher folds the log of an execution once more and turns events into effects: jobs,
schedules, commands to parents and children, cached results. What an effect needs is in the event and in the
state it leaves behind.

| here | there |
| --- | --- |
| `Job`, `CacheEntry`          | `wire.Job`, `wire.CacheEntry` (`internal/wire/wire.go:111-135`, `:313-320`) |
| `Dispatcher.effects`         | `effects` (`:322-341`) with one function each for `job`, `cachedResult`, `timer`, `startChild`, `storeCache`, `cancelChildren`, `terminal` |
| `Look`                       | what a job reads elsewhere: whether its attempt has ended at the head of the log, and its cached result |
| `schedulesOf`                | the schedules an execution is left with: `TimerSubject` holds one for each timer id |

`Dispatcher` has the two hashes that keys are made of and the clock a cached result expires by; metrics, stop notices and the
index are left out.

**`finished_execution_expires`**: dispatching the log of a finished execution whose flow sets a retention schedules its archive or
delete command, unless the execution is the fork of a finished state: then the fork is its only event, and `terminal` never runs.
-/

namespace Packtrail

open Replay

structure Job where
  execID : String
  flow : String
  flowHash : String
  node : String
  kind : String
  key : String
  index : Nat
  generation : Nat
  attempt : Nat
  context : Context
  metaData : Raw
  cacheKey : String
  concurrency : Option Concurrency
  traceparent : String

structure CacheEntry where
  output : Raw
  writes : SMap Json
  next : String
  usage : SMap Rat
  expires : Time

inductive Effect
  | job (j : Job)
  /-- `PublishCmd` -/
  | send (c : Envelope) (data : CmdData) (traceparent : String)
  /-- `ScheduleCmd` on the timer subject of the execution. -/
  | schedule (timerID : String) (at_ : Time) (c : Envelope) (data : CmdData)
  | purgeTimers
  | cache (key : String) (entry : CacheEntry)

/-- What the effect of an event reads outside its log. -/
structure Look where
  /-- `endedAtHead` -/
  ended : Bool := false
  /-- A cached result that has not expired. -/
  cached : Option CacheEntry := none
  now : Time := 0

structure Dispatcher where
  x : Ext
  fl : Flow
  sha : Json → String
  tokenHash : String → String

/-- `wire.TimerExpire` -/
def timerExpire : String := "archive"

def Flow.deletesOnExpire (f : Flow) : Bool := f.onExpire = .delete

namespace Dispatcher

variable (d : Dispatcher)

/-- The concurrency key of a job (`dispatch.go:384-389`): none when the expression fails or yields nil. -/
def concurrencyOf (st : State) (node : String) (n : Node) (t : Task) : Option Concurrency :=
  match n.concurrency with
  | none => none
  | some c =>
    match d.x.eval c.key (st.env (some t)) with
    | .error _ => none
    | .ok v => if v.isNil then none else some { key := node ++ "." ++ d.tokenHash v.text, max := c.max }

def jobOf (st : State) (ev : Event) (s : Event.Scheduled) (n : Node) (t : Task) : Job :=
  { execID := st.execID, flow := st.flow, flowHash := st.flowHash, node := s.node, kind := s.kind, key := s.key
    index := s.index, generation := s.generation, attempt := s.attempt, context := st.contextView (some t)
    metaData := n.metaData.bind Except.toOption
    cacheKey := if n.cacheTTL.isSome then cacheKey d.sha st.flowHash s.node (st.contextView (some t)) else ""
    concurrency := d.concurrencyOf st s.node n t, traceparent := ev.trace }

/-- `cachedResult` (`dispatch.go:527-566`) once the entry is read. -/
def answer (j : Job) (ce : CacheEntry) : Effect :=
  .send (Packtrail.cachedResult j.execID j.key j.generation j.attempt)
    (.complete { key := j.key, generation := j.generation, attempt := j.attempt, output := ce.output, writes := ce.writes
                 next := ce.next, usage := ce.usage, cached := true, cacheKey := j.cacheKey }) j.traceparent

/-- `job` (`dispatch.go:346-392`) -/
def job (l : Look) (st : State) (ev : Event) (s : Event.Scheduled) : List Effect :=
  match st.tasks[s.key]? with
  | none => []
  | some t =>
    -- superseded within the same decision
    if t.generation ≠ s.generation ∨ t.attempt ≠ s.attempt then []
    else if l.ended then []
    else match d.fl.node s.node with
      -- a scheduled node is one of the flow (`Work.Fits`)
      | none => []
      | some n =>
        match l.cached with
        | some ce => if n.cacheTTL.isSome then [answer (d.jobOf st ev s n t) ce] else [.job (d.jobOf st ev s n t)]
        | none => [.job (d.jobOf st ev s n t)]

def timer (st : State) (t : Timer) : List Effect :=
  [.schedule t.id t.at_ (timerCommand st.execID t.id) (.timer { timerID := t.id })]

def startChild (st : State) (ev : Event) (c : Event.Child) : List Effect :=
  [.send (startChildCommand c.childID)
    (.start { flow := c.flow, input := c.input, parent := some ⟨st.execID, c.node, c.childN⟩ }) ev.trace]

def storeCache (l : Look) (done : Event.NodeDone) : List Effect :=
  if done.cacheKey = "" ∨ done.cached = true then []
  else match (d.fl.node done.node).bind Node.cacheTTL with
    | none => []
    | some ttl => [.cache done.cacheKey
        { output := done.output, writes := done.writes, next := done.next, usage := done.usage, expires := l.now + ttl }]

def cancelChildren (children : List String) (reason : String) (ev : Event) : List Effect :=
  children.map fun child => .send (parentClosed child) (.cancel { reason }) ev.trace

/-- The parent is told (`dispatch.go:676-690`). -/
def childDone (st : State) (ev : Event) : List Effect :=
  match st.parent with
  | none => []
  | some p => [.send (childDoneCommand st.execID p.execID)
      (.childDone { childID := st.execID, status := st.status.name, output := st.output, error := st.error, counters := st.counters })
      ev.trace]

/-- The expiry is scheduled (`dispatch.go:698-710`). -/
def expire (st : State) (ev : Event) : List Effect :=
  if 0 < d.fl.retention then
    [.schedule timerExpire (ev.time + d.fl.retention) (expiry d.fl.deletesOnExpire st.execID)
      (.operational (if d.fl.deletesOnExpire then "delete" else "archive"))]
  else []

/-- `terminal` (`dispatch.go:658-713`) -/
def terminal (st : State) (ev : Event) (children : List String) : List Effect :=
  cancelChildren children "parent closed" ev ++ childDone st ev ++ [.purgeTimers] ++ d.expire st ev

/-- The effects of `ev`, in order; `st` is the state it leaves behind. -/
def effects (l : Look) (st : State) (ev : Event) : List Effect :=
  match ev.data with
  | .scheduled s => d.job l st ev s
  | .timer t => timer st t
  | .child c => startChild st ev c
  | .nodeDone done => d.storeCache l done
  | .join j => cancelChildren j.cancelChildren "join settled" ev
  | .mapAbort m => cancelChildren m.cancelChildren "map aborted" ev
  | .completed _ => d.terminal st ev []
  | .failed f => d.terminal st ev f.cancelChildren
  | .cancelled c => d.terminal st ev c.cancelChildren
  | _ => []

/-- The effects of an event in the state it is applied to. -/
def effectsAt (look : Event → Look) (s : State) (ev : Event) : List Effect :=
  match s.apply d.x.quote d.fl ev with
  | .ok st => d.effects (look ev) st ev
  | .error _ => []

/-- Everything a whole log asks for. -/
def dispatched (look : Event → Look) (execID : String) (evs : List Event) : List Effect :=
  Replay.collect (State.apply d.x.quote d.fl) (d.effectsAt look) (State.new execID) evs

end Dispatcher

/-! ## Schedules -/

def Effect.onSchedules (m : SMap (Time × Envelope)) : Effect → SMap (Time × Envelope)
  | .schedule id at_ c _ => m.insert id (at_, c)
  | .purgeTimers => ∅
  | _ => m

/-- The schedules an execution is left with. -/
def schedulesOf (es : List Effect) : SMap (Time × Envelope) := es.foldl Effect.onSchedules ∅

theorem schedulesOf_append (es es' : List Effect) : schedulesOf (es ++ es') = es'.foldl Effect.onSchedules (schedulesOf es) :=
  List.foldl_append

/-- Leaves the expiry of an execution alone. -/
def Effect.sparesExpiry : Effect → Bool
  | .schedule id _ _ _ => id != timerExpire
  | .purgeTimers => false
  | _ => true

theorem get_onSchedules {m : SMap (Time × Envelope)} {e : Effect} (h : e.sparesExpiry = true) :
    (e.onSchedules m)[timerExpire]? = m[timerExpire]? := by
  cases e with
  | schedule id at_ c data =>
    have hne : id ≠ timerExpire := by simpa [Effect.sparesExpiry] using h
    rw [Effect.onSchedules, get_insert, if_neg hne]
  | purgeTimers => cases h
  | _ => rfl

theorem get_foldl_onSchedules {es : List Effect} (h : ∀ e ∈ es, e.sparesExpiry = true) (m : SMap (Time × Envelope)) :
    (es.foldl Effect.onSchedules m)[timerExpire]? = m[timerExpire]? := by
  induction es generalizing m with
  | nil => rfl
  | cons e es ih =>
    rw [List.foldl_cons, ih (fun e' he => h e' (List.mem_cons_of_mem _ he)), get_onSchedules (h e List.mem_cons_self)]

theorem timerID_ne_expire (n : Nat) : timerID n ≠ timerExpire := by
  intro h
  have h := congrArg (fun s : String => s.toList.head?) h
  simp [timerID, timerExpire] at h

section
variable {d : Dispatcher} {l : Look} {st s s' : State} {ev : Event} {base : Nat}

theorem cancelChildren_spares (children : List String) (reason : String) :
    ∀ e ∈ Dispatcher.cancelChildren children reason ev, e.sparesExpiry = true := by
  intro e he
  obtain ⟨child, -, rfl⟩ := List.mem_map.1 he
  rfl

/-- Only a terminal event touches the expiry. -/
theorem effects_spare (hp : Promise d.fl base s ev) (ht : ev.data.terminal = false) : ∀ e ∈ d.effects l st ev, e.sparesExpiry = true := by
  intro e he
  have ho := hp.offer
  unfold Dispatcher.effects at he
  cases hd : ev.data with
  | scheduled sc =>
    rw [hd] at he
    simp only [Dispatcher.job] at he
    repeat' split at he
    all_goals first | (cases he; done) | (obtain rfl := List.mem_singleton.1 he; rfl)
  | timer t =>
    rw [hd] at he ho
    obtain rfl := List.mem_singleton.1 he
    have hid : t.id = timerID t.n := ho.2
    simp [Effect.sparesExpiry, hid, timerID_ne_expire]
  | child c =>
    rw [hd] at he
    obtain rfl := List.mem_singleton.1 he
    rfl
  | nodeDone done =>
    rw [hd] at he
    simp only [Dispatcher.storeCache] at he
    repeat' split at he
    all_goals first | (cases he; done) | (obtain rfl := List.mem_singleton.1 he; rfl)
  | join j => rw [hd] at he; exact cancelChildren_spares _ _ e he
  | mapAbort m => rw [hd] at he; exact cancelChildren_spares _ _ e he
  | completed c => rw [hd] at ht; cases ht
  | failed f => rw [hd] at ht; cases ht
  | cancelled c => rw [hd] at ht; cases ht
  | _ => rw [hd] at he; cases he

theorem terminal_schedules (hret : 0 < d.fl.retention) (children : List String) (m : SMap (Time × Envelope)) :
    ((d.terminal st ev children).foldl Effect.onSchedules m)[timerExpire]? =
      some (ev.time + d.fl.retention, expiry d.fl.deletesOnExpire st.execID) := by
  rw [Dispatcher.terminal, List.foldl_append, Dispatcher.expire, if_pos hret]
  simp only [List.foldl_cons, List.foldl_nil, Effect.onSchedules]
  rw [get_insert, if_pos rfl]

theorem effects_schedule (hret : 0 < d.fl.retention) (ht : ev.data.terminal = true) (m : SMap (Time × Envelope)) :
    ((d.effects l st ev).foldl Effect.onSchedules m)[timerExpire]? =
      some (ev.time + d.fl.retention, expiry d.fl.deletesOnExpire st.execID) := by
  unfold Dispatcher.effects
  cases hd : ev.data with
  | completed c => exact terminal_schedules hret _ m
  | failed f => exact terminal_schedules hret _ m
  | cancelled c => exact terminal_schedules hret _ m
  | _ => rw [hd] at ht; cases ht

/-! ## Whole logs -/

/-- What the schedules say of the events dispatched so far. -/
structure Expiring (d : Dispatcher) (look : Event → Look) (id : String) (evs : List Event) (s : State) : Prop where
  folded : replay (State.apply d.x.quote d.fl) (State.new id) evs = .ok s
  ended : (∃ ev ∈ evs, ev.data.terminal = true) → s.status.terminal = true
  scheduled : (∃ ev ∈ evs, ev.data.terminal = true) →
    ∃ at_, (schedulesOf (d.dispatched look id evs))[timerExpire]? = some (at_, expiry d.fl.deletesOnExpire s.execID)
  unscheduled : (∀ ev ∈ evs, ev.data.terminal = false) → (schedulesOf (d.dispatched look id evs))[timerExpire]? = none

theorem Expiring.step (hret : 0 < d.fl.retention) {look : Event → Look} {id : String} {evs : List Event}
    (h : Expiring d look id evs s) (hp : Promise d.fl base s ev) (ha : s.apply d.x.quote d.fl ev = .ok s') :
    Expiring d look id (evs ++ [ev]) s' := by
  have hnone : ∀ ev ∈ evs, ev.data.terminal = false := fun e he => by
    by_contra hne
    have := h.ended ⟨e, he, by simpa using hne⟩
    rw [hp.unended] at this
    cases this
  have heffects : schedulesOf (d.dispatched look id (evs ++ [ev])) =
      (d.effects (look ev) s' ev).foldl Effect.onSchedules (schedulesOf (d.dispatched look id evs)) := by
    rw [Dispatcher.dispatched, collect_append h.folded, schedulesOf_append]
    simp only [Replay.collect, Dispatcher.effectsAt, ha, List.append_nil]
    rfl
  have hlast : (∃ e ∈ evs ++ [ev], e.data.terminal = true) → ev.data.terminal = true := by
    rintro ⟨e, he, ht⟩
    rcases List.mem_append.1 he with he | he
    · rw [hnone e he] at ht
      cases ht
    · rwa [← List.mem_singleton.1 he]
  refine ⟨replay_append_ok h.folded (by simp [replay, ha]), fun ht => (hp.terminal ha).2 (.inl (hlast ht)), fun ht => ?_, fun hall => ?_⟩
  · rw [heffects]
    exact ⟨_, effects_schedule hret (hlast ht) _⟩
  · rw [heffects, get_foldl_onSchedules (effects_spare hp (hall ev (by simp)))]
    exact h.unscheduled hnone

end

/-- Nothing is written after the fork of a finished state. -/
theorem Path.only_fork {x : Ext} {fl : Flow} {base : Nat} {s s' : State} {evs : List Event} {ev : Event} {f : Event.Forked}
    (hp : Path (State.apply x.quote fl) (Promise fl base) s evs s') (hhead : evs.head? = some ev) (hf : ev.data = .forked f)
    (hfin : (unmarshal f.state).status.terminal = true) : evs = [ev] := by
  cases hp with
  | nil => cases hhead
  | @cons _ s₁ _ first rest guard ok hrest =>
    obtain rfl : first = ev := Option.some.inj hhead
    have hend : s₁.status.terminal = true := (guard.terminal ok).2 (.inr ⟨f, hf, hfin⟩)
    rw [Path.nil_of_ended hrest hend]

/-- The execution is the fork of a state that had finished. -/
def ForksFinished (log : List (List Event)) : Prop :=
  ∃ ev f, log.flatten.head? = some ev ∧ ev.data = .forked f ∧ (unmarshal f.state).status.terminal = true

/-- **A finished execution expires**, unless it is the fork of a finished state. -/
theorem finished_execution_expires {d : Dispatcher} {s : State} {log : List (List Event)} (hv : validate d.x d.fl = [])
    (h : Reachable d.x d.fl s log) (hret : 0 < d.fl.retention) (hterm : s.status.terminal = true) (look : Event → Look) :
    (∃ at_, (schedulesOf (d.dispatched look s.execID log.flatten))[timerExpire]? =
      some (at_, expiry d.fl.deletesOnExpire s.execID)) ↔ ¬ ForksFinished log := by
  have wf := wellFormed_of_validate hv
  obtain ⟨s₁, hp, ha, hid⟩ := h.writtenAs wf s.execID
  have hend : s₁.status.terminal = true := by
    have hst : s₁.status = s.status := ha.status
    rw [hst]
    exact hterm
  have hpromise := hp.mono fun _ _ hg => hg.1
  have hnew : Expiring d look s.execID [] (State.new s.execID) := by
    refine ⟨rfl, ?_, ?_, fun _ => get_empty⟩ <;> rintro ⟨ev, hev, -⟩ <;> cases hev
  have hrun : Expiring d look s.execID log.flatten s₁ :=
    hpromise.logInvariant (I := Expiring d look s.execID) (fun _ _ _ _ hi hg ha => hi.step hret hg ha) hnew
  obtain ⟨ev, hmem, hev⟩ := Path.terminal_of_ended hpromise rfl hend
  constructor
  · rintro ⟨at_, hat⟩ ⟨first, f, hhead, hf, hfin⟩
    -- nothing follows the fork of a finished state, and it is no terminal event itself
    have hno : ∀ e ∈ log.flatten, e.data.terminal = false := by
      rw [Path.only_fork hpromise hhead hf hfin]
      intro e he
      rw [List.mem_singleton.1 he, hf]
      rfl
    rw [hrun.unscheduled hno] at hat
    cases hat
  · intro hno
    rcases hev with hev | ⟨hhead, f, hf, hfin⟩
    · have hne : log.flatten ≠ [] := List.ne_nil_of_mem hmem
      have hs := hrun.scheduled ⟨ev, hmem, hev⟩
      rw [hid hne] at hs
      exact hs
    · exact absurd ⟨ev, f, hhead, hf, hfin⟩ hno

def plainDispatcher : Dispatcher := ⟨plainExt, oneTask, fun _ => "", fun s => s⟩

def Effect.isJobOf (key : String) : Effect → Bool
  | .job j => j.key == key
  | _ => false

def keptReview : Flow := { oneTask with retention := 60 }

theorem keptReview_valid : validate plainExt keptReview = [] := by decide +kernel

def keptDispatcher : Dispatcher := { x := plainExt, fl := keptReview, sha := fun _ => "", tokenHash := fun _ => "" }

def keptRun : State × List (List Event) :=
  (serve plainExt keptReview (State.new "r1") []
    [(startReview, 1), (⟨"done-1", .complete { key := "draft", generation := 1, attempt := 1 }⟩, 2)]).get (by decide +kernel)

theorem keptRun_reachable : Reachable plainExt keptReview keptRun.1 keptRun.2 := (Reachable.new "r1").serve (Option.some_get _).symm

theorem keptRun_expires : keptRun.1.status.terminal = true ∧
    ∃ at_, (schedulesOf (keptDispatcher.dispatched (fun _ => {}) keptRun.1.execID keptRun.2.flatten))[timerExpire]? =
      some (at_, expiry keptReview.deletesOnExpire keptRun.1.execID) := by
  have hend : keptRun.1.status.terminal = true := by decide +kernel
  have hv : validate keptDispatcher.x keptDispatcher.fl = [] := keptReview_valid
  have hr : Reachable keptDispatcher.x keptDispatcher.fl keptRun.1 keptRun.2 := keptRun_reachable
  refine ⟨hend, (finished_execution_expires hv hr (by decide) hend fun _ => {}).2 ?_⟩
  rintro ⟨ev, f, hhead, hf, -⟩
  have hfirst : (keptRun.2.flatten.head?).map (fun ev => ev.data.isForked) = some false := by decide +kernel
  rw [hhead, Option.map_some, hf] at hfirst
  cases hfirst

def keptFork : Outcome := decideFork plainExt keptReview (State.new "r2") keptRun.1 "r1" 2 "fork-1" ∅ 3

/-- The fork of a finished execution is finished and never expires. -/
theorem finished_fork_stays : (∃ log, Reachable plainExt keptReview keptFork.state log ∧ log = [keptFork.events]) ∧
    keptFork.state.status.terminal = true ∧
    ((schedulesOf (keptDispatcher.dispatched (fun _ => {}) keptFork.state.execID keptFork.events))[timerExpire]?).isNone = true := by
  have hok : keptFork.result.isOk = true := by decide +kernel
  have hne : keptFork.events.isEmpty = false := by decide +kernel
  have hex : keptRun.1.exists = true := by decide +kernel
  have hr := @Reachable.step plainExt keptReview (State.new "r2") [] keptRun.2 keptFork.events
    (.ask (.fork keptRun.1 "r1" 2 "fork-1" ∅)) 3 (.new "r2") (fun src hs => by cases hs; exact keptRun_reachable)
    (fun src hs => by cases hs; exact hex) (Outcome.result_events hok)
  refine ⟨⟨_, hr, ?_⟩, by decide +kernel, by decide +kernel⟩
  rw [record, hne]
  rfl

end Packtrail
