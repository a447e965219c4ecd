import Packtrail.Apply

/-
# What is in progress

`Work` is the part of a state that says what an execution is waiting for: open tasks, fan-outs, maps,
awaits and children, pending timers, buffered signals, and the counters that number them. Values
(inputs, channels, results, the outputs a map collected) are left out. `Work.step` is the machine of
these alone; **`apply_work`** says that folding an event into a state moves its work by `Work.step`,
so the invariants of the decider are proved of `Work` and hold of every state with the same encoding
(`work_encoded`).
-/

namespace Packtrail

/-- An open map without the outputs it holds; `size` is the number of output slots. -/
structure MapWork where
  items : List Json
  size : Nat
  done : Nat
  next : Nat
  maxParallel : Int

def MapRun.work (m : MapRun) : MapWork :=
  { items := m.items, size := m.outputs.length, done := m.done, next := m.next, maxParallel := m.maxParallel }

/-- What is open. -/
structure Open where
  tasks : SMap Task
  fans : SMap Fan
  maps : SMap MapWork
  awaits : SMap AwaitState
  children : SMap ChildState

structure Work extends Open where
  timers : SMap Timer
  buffered : List Buffered
  n : Nat
  steps : Nat

def State.work (s : State) : Work :=
  { tasks := s.tasks, fans := s.fans, maps := s.maps.map fun _ m => m.work, awaits := s.awaits, children := s.children
    timers := s.timers, buffered := s.buffered, n := s.n, steps := s.steps }

namespace Work

/-! ## The machine -/

def closed (w : Work) : Work :=
  { w with tasks := ∅, fans := ∅, maps := ∅, awaits := ∅, children := ∅, timers := ∅ }

def raiseNext (w : Work) (owner node : String) (index : Nat) : SMap MapWork :=
  match w.maps[owner]? with
  | some m => if node = owner then w.maps.insert owner { m with next := max m.next (index + 1) } else w.maps
  | none => w.maps

/-- The task an attempt creates at its key; a resumed run keeps the payload it was interrupted with. -/
def taskOf (w : Work) (d : Event.Scheduled) : Task :=
  { key := d.key, node := d.node, kind := d.kind, index := d.index, owner := d.owner, generation := d.generation
    attempt := d.attempt, status := .scheduled, item := d.item, resume := d.resume, resumedBy := d.resumedBy
    interrupt := match w.tasks[d.key]? with
      | some prev => if d.resume.isSome then prev.interrupt else none
      | none => none }

def schedule (w : Work) (d : Event.Scheduled) : Work :=
  { w with
    tasks := w.tasks.insert d.key (w.taskOf d), n := max w.n d.generation
    maps := w.raiseNext d.owner d.node d.index }

def settleFans (w : Work) (owner node : String) (outcome : BranchStatus) : SMap Fan :=
  match w.fans[owner]? with
  | some f => w.fans.insert owner { f with branches := f.branches.insert node outcome }
  | none => w.fans

def settle (w : Work) (key : String) (outcome : BranchStatus) : Work :=
  match w.tasks[key]? with
  | none => w
  | some t => { w with tasks := w.tasks.erase key, fans := w.settleFans t.owner t.node outcome }

/-- One more output of the map `owner`, when the instance is an item of it. -/
def countDone (w : Work) (owner node : String) : SMap MapWork :=
  match w.maps[owner]? with
  | some m => if node = owner then w.maps.insert owner { m with done := m.done + 1 } else w.maps
  | none => w.maps

def finishTask (w : Work) (key : String) : Work :=
  match w.tasks[key]? with
  | none => w
  | some t => { w with maps := w.countDone t.owner t.node }.settle key .completed

def setStatus (w : Work) (key : String) (f : Task → Task) : Work :=
  match w.tasks[key]? with
  | none => w
  | some t => { w with tasks := w.tasks.insert key (f t) }

def closeAwait (w : Work) (node : String) : Work :=
  { w with
    awaits := w.awaits.erase node
    timers := match w.awaits[node]? with
      | some a => w.timers.erase a.timerID
      | none => w.timers }

def dropChildren (w : Work) (owner : String) : SMap ChildState := w.children.filter fun _ c => c.owner ≠ owner

def openFan (w : Work) (d : Event.Fanout) : Work :=
  { w with
    fans := w.fans.insert d.node
      { join := d.join, branches := d.branches.foldl (fun m b => m.insert b .pending) ∅ } }

def openMap (w : Work) (d : Event.Map) : Work :=
  { w with
    maps := w.maps.insert d.node
      { items := d.items, size := d.items.length, done := 0, next := 0, maxParallel := d.maxParallel } }

def closeFan (w : Work) (fan : String) : Work :=
  { w with
    fans := w.fans.erase fan
    children := match w.fans[fan]? with
      | some _ => w.dropChildren fan
      | none => w.children }

def startChild (w : Work) (d : Event.Child) : Work :=
  { w with
    children := w.children.insert d.instanceKey
      { childID := d.childID, flow := d.flow, policy := d.policy, node := d.node, owner := d.owner, index := d.index }
    n := max w.n d.childN
    maps := w.raiseNext d.owner d.node d.index }

/-- What the end of child `c` settles: a slot of its map, or a branch of its fan-out. -/
def settleChild (w : Work) (d : Event.ChildDone) (c : ChildState) : Work :=
  let ok := d.status == "completed"
  match if c.owner = d.node then w.maps[c.owner]? else none with
  | some m => if ok then { w with maps := w.maps.insert c.owner { m with done := m.done + 1 } } else w
  | none => { w with fans := w.settleFans c.owner d.node (if ok then .completed else .failed) }

def finishChild (w : Work) (d : Event.ChildDone) : Work :=
  let w' := { w with children := w.children.erase d.instanceKey }
  match w.children[d.instanceKey]? with
  | none => w'
  | some c => w'.settleChild d c

def step (w : Work) : Payload → Work
  | .started _ | .choice _ | .update _ => w
  | .forked d => { (unmarshal d.state).work with timers := ∅ }
  | .continued d => (unmarshal d.state).work
  | .completed _ | .failed _ | .cancelled _ => w.closed
  | .entered _ => { w with steps := w.steps + 1 }
  | .scheduled d => w.schedule d
  | .nodeDone d => w.finishTask d.key
  | .nodeFail d => if d.willRetry then w.setStatus d.key fun t => { t with status := .retrying } else w.settle d.key .failed
  | .interrupted d => w.setStatus d.key fun t => { t with status := .interrupted, interrupt := d.payload }
  | .nodeCancel d => w.settle d.key .cancelled
  | .fanout d => w.openFan d
  | .join d => w.closeFan d.fanout
  | .map d => w.openMap d
  | .mapDone d => { w with maps := w.maps.erase d.node }
  | .mapAbort d => { w with children := w.dropChildren d.node, maps := w.maps.erase d.node }
  | .await d => { w with awaits := w.awaits.insert d.node ⟨d.signal, d.timerID⟩ }
  | .awaitTimeout d => w.closeAwait d.node
  | .signal d => { w with buffered := w.buffered ++ [⟨d.name, d.id, d.payload⟩] }
  | .signalUse d => { w.closeAwait d.node with buffered := w.buffered.eraseP fun b => b.id == d.id }
  | .child d => w.startChild d
  | .childDone d => w.finishChild d
  | .timer d => { w with timers := w.timers.insert d.id d, n := max w.n d.n }
  | .fired d => { w with timers := w.timers.erase d.id }

/-- The buffer and the number of node entries. -/
def books (w : Work) : List Buffered × Nat := (w.buffered, w.steps)

theorem books_settle (w : Work) (key : String) (o : BranchStatus) : (w.settle key o).books = w.books := by
  unfold settle
  split <;> rfl

theorem books_finishTask (w : Work) (key : String) : (w.finishTask key).books = w.books := by
  unfold finishTask
  split
  · rfl
  · exact books_settle _ _ _

theorem books_setStatus (w : Work) (key : String) (f : Task → Task) : (w.setStatus key f).books = w.books := by
  unfold setStatus
  split <;> rfl

theorem books_finishChild (w : Work) (d : Event.ChildDone) : (w.finishChild d).books = w.books := by
  simp only [finishChild, settleChild]
  (repeat' split) <;> rfl

/-- What one event does to them. -/
theorem books_step (w : Work) (p : Payload) : (w.step p).books =
    match p with
    | .forked d | .continued d => (unmarshal d.state).work.books
    | .entered _ => (w.buffered, w.steps + 1)
    | .signal d => (w.buffered ++ [⟨d.name, d.id, d.payload⟩], w.steps)
    | .signalUse d => (w.buffered.eraseP fun b => b.id == d.id, w.steps)
    | _ => w.books := by
  cases p with
  | nodeDone d => exact books_finishTask w d.key
  | nodeFail d =>
    simp only [step]
    split
    · exact books_setStatus _ _ _
    · exact books_settle _ _ _
  | nodeCancel d => exact books_settle _ _ _
  | interrupted d => exact books_setStatus _ _ _
  | childDone d => exact books_finishChild w d
  | _ => rfl

end Work

/-! ## The fold moves the work as the machine does -/

namespace State

@[simp] theorem work_tasks (s : State) : s.work.tasks = s.tasks := rfl
@[simp] theorem work_fans (s : State) : s.work.fans = s.fans := rfl
@[simp] theorem work_awaits (s : State) : s.work.awaits = s.awaits := rfl
@[simp] theorem work_children (s : State) : s.work.children = s.children := rfl
@[simp] theorem work_timers (s : State) : s.work.timers = s.timers := rfl
@[simp] theorem work_buffered (s : State) : s.work.buffered = s.buffered := rfl
@[simp] theorem work_n (s : State) : s.work.n = s.n := rfl
@[simp] theorem work_steps (s : State) : s.work.steps = s.steps := rfl

@[simp] theorem work_maps_get (s : State) (k : String) : s.work.maps[k]? = (s.maps[k]?).map MapRun.work := by
  simp [work, Std.ExtTreeMap.getElem?_map]

theorem work_maps_of {s : State} {k : String} {m : MapRun} (h : s.maps[k]? = some m) : s.work.maps[k]? = some m.work := by
  rw [work_maps_get, h]
  rfl

@[simp] theorem work_finish (s : State) (ev : Event) : (s.finish ev).work = s.work := rfl

@[simp] theorem work_addUsage (s : State) (u : SMap Rat) : (s.addUsage u).work = s.work := rfl

end State

/-- Projecting the open maps commutes with updating one of them. -/
theorem map_work_insert (m : SMap MapRun) (k : String) (v : MapRun) :
    (m.insert k v).map (fun _ r => r.work) = (m.map fun _ r => r.work).insert k v.work := by
  apply Std.ExtTreeMap.ext_getElem?
  intro a
  simp only [Std.ExtTreeMap.getElem?_map, Std.ExtTreeMap.getElem?_insert]
  split <;> rfl

theorem map_work_erase (m : SMap MapRun) (k : String) :
    (m.erase k).map (fun _ r => r.work) = (m.map fun _ r => r.work).erase k := by
  apply Std.ExtTreeMap.ext_getElem?
  intro a
  simp only [Std.ExtTreeMap.getElem?_map, Std.ExtTreeMap.getElem?_erase]
  split <;> rfl

namespace State

theorem work_raiseNext (s : State) (owner node : String) (index : Nat) :
    (s.raiseNext owner node index).map (fun _ r => r.work) = s.work.raiseNext owner node index := by
  unfold raiseNext Work.raiseNext
  rw [work_maps_get]
  cases s.maps[owner]? with
  | none => rfl
  | some m =>
    simp only [Option.map_some]
    split
    · rw [map_work_insert]; rfl
    · rfl

theorem work_applyScheduled (s : State) (d : Event.Scheduled) : (s.applyScheduled d).work = s.work.schedule d := by
  simp only [applyScheduled, work, Work.schedule, Work.mk.injEq, Open.mk.injEq, true_and, and_true]
  exact ⟨rfl, work_raiseNext s _ _ _⟩

theorem work_settleTask (s : State) (key : String) (o : BranchStatus) :
    (s.settleTask key o).work = s.work.settle key o := by
  unfold settleTask Work.settle
  rw [work_tasks]
  cases s.tasks[key]? <;> rfl

theorem work_terminate (s : State) (st : Status) : (s.terminate st).work = s.work.closed := by
  show ({ s.work.closed with maps := (∅ : SMap MapRun).map fun _ r => r.work } : Work) = _
  have : ((∅ : SMap MapRun).map fun _ r => r.work) = (∅ : SMap MapWork) := by
    apply Std.ExtTreeMap.ext_getElem?
    simp
  rw [this]
  rfl

variable {s s' : State} {quote : String → String} {fl : Flow}

theorem work_recordItem {owner : String} {m : MapRun} {i : Nat} {out : Raw}
    (h : s.recordItem owner m i out = .ok s') :
    s'.work = { s.work with maps := s.work.maps.insert owner { m.work with done := m.done + 1 } } := by
  unfold recordItem at h
  split at h
  · cases h
    show ({ s.work with maps := (s.maps.insert owner _).map fun _ r => r.work } : Work) = _
    rw [map_work_insert]
    simp only [MapRun.work, List.length_set]
    rfl
  · cases h

theorem work_recordOutput {t : Task} {out : Raw} (h : s.recordOutput t out = .ok s') :
    s'.work = { s.work with maps := s.work.countDone t.owner t.node } := by
  unfold recordOutput at h
  unfold Work.countDone
  rw [work_maps_get]
  cases hm : s.maps[t.owner]? with
  | none => rw [hm] at h; cases h; rfl
  | some m =>
    simp only [hm] at h
    simp only [Option.map_some]
    split at h
    · rename_i hto; rw [if_pos hto]; exact work_recordItem h
    · rename_i hto; rw [if_neg hto]; cases h; rfl

/-- The steps of a completion that succeeds. -/
theorem applyNodeDone_steps {d : Event.NodeDone}
    (h : s.applyNodeDone quote fl d = .ok s') :
    ∃ t channels s₁, s.tasks[d.key]? = some t ∧ reduceAll quote fl s.channels d.writes.toList = .ok channels ∧
    (({ s with channels } : State).addUsage d.usage).recordOutput t d.output = .ok s₁ ∧ s₁.settleTask d.key .completed = s' := by
  unfold applyNodeDone at h
  split at h
  · cases h
  · rename_i t ht
    split at h
    · cases h
    · rename_i channels hch
      cases hr : (({ s with channels } : State).addUsage d.usage).recordOutput t d.output with
      | error e => rw [hr] at h; cases h
      | ok s₁ => rw [hr] at h; exact ⟨t, channels, s₁, ht, hch, hr, Except.ok.inj h⟩

theorem work_applyNodeDone {d : Event.NodeDone}
    (h : s.applyNodeDone quote fl d = .ok s') : s'.work = s.work.finishTask d.key := by
  obtain ⟨t, channels, s₁, ht, -, hr, rfl⟩ := applyNodeDone_steps h
  unfold Work.finishTask
  rw [work_tasks, ht, work_settleTask, work_recordOutput hr]
  rfl

theorem work_applyNodeFail (s : State) (d : Event.NodeFail) :
    (s.applyNodeFail d).work = s.work.step (.nodeFail d) := by
  unfold applyNodeFail
  simp only [Work.step, Work.setStatus, Work.settle, work_tasks]
  cases ht : s.tasks[d.key]? with
  | none => simp
  | some t =>
    simp only
    split
    · rfl
    · rw [work_settleTask]
      simp only [Work.settle, work_tasks]
      show (match (s.addUsage d.usage).tasks[d.key]? with | none => _ | some t => _) = _
      rw [show (s.addUsage d.usage).tasks = s.tasks from rfl, ht]
      rfl

theorem work_applyJoin (s : State) (d : Event.Join) : (s.applyJoin d).work = s.work.closeFan d.fanout := by
  unfold applyJoin Work.closeFan
  simp only [work_fans]
  cases s.fans[d.fanout]? <;> rfl

theorem work_applyChild (s : State) (d : Event.Child) : (s.applyChild d).work = s.work.startChild d := by
  simp only [applyChild, work, Work.startChild, Work.mk.injEq, Open.mk.injEq, true_and, and_true]
  exact work_raiseNext s _ _ _

theorem work_applyChildDone {d : Event.ChildDone} (h : s.applyChildDone d = .ok s') :
    s'.work = s.work.finishChild d := by
  unfold applyChildDone at h
  unfold Work.finishChild
  simp only [work_children]
  obtain ⟨s₁, hs₁⟩ : ∃ s₁, s₁ = ({ s with children := s.children.erase d.instanceKey } : State).addUsage d.counters :=
    ⟨_, rfl⟩
  have hw : ({ s.work with children := s.children.erase d.instanceKey } : Work) = s₁.work := by rw [hs₁]; rfl
  simp only [← hs₁] at h
  rw [hw]
  cases hc : s.children[d.instanceKey]? with
  | none => simp only [hc] at h; cases h; rfl
  | some c =>
    simp only [hc] at h
    simp only [Work.settleChild]
    by_cases ho : c.owner = d.node
    · simp only [ho, if_true] at h ⊢
      rw [work_maps_get]
      cases hm : s₁.maps[d.node]? with
      | none => simp only [hm] at h; cases h; rfl
      | some m =>
        simp only [hm] at h
        simp only [Option.map_some]
        split at h
        · rename_i hok; rw [if_pos hok]; exact work_recordItem h
        · rename_i hok; rw [if_neg hok]; cases h; rfl
    · simp only [ho, if_false] at h ⊢
      cases h
      rfl

theorem work_applyData {ev : Event}
    (h : s.applyData quote fl ev = .ok s') : s'.work = s.work.step ev.data := by
  unfold applyData at h
  cases hd : ev.data <;> simp only [hd] at h
  case nodeDone d => exact work_applyNodeDone h
  case scheduled d => cases h; exact work_applyScheduled s d
  case nodeFail d => cases h; exact work_applyNodeFail s d
  case nodeCancel d => cases h; exact work_settleTask s _ _
  case join d => cases h; exact work_applyJoin s d
  case child d => cases h; exact work_applyChild s d
  case childDone d => exact work_applyChildDone h
  case interrupted d =>
    unfold applyInterrupted at h
    simp only [Work.step, Work.setStatus, work_tasks]
    cases ht : s.tasks[d.key]? with
    | none => rw [ht] at h; cases h
    | some t => rw [ht] at h; cases h; rfl
  case update d =>
    unfold applyUpdate at h
    split at h <;> cases h
    rfl
  case map d =>
    cases h
    simp only [Work.step, Work.openMap]
    show ({ s.work with maps := (s.maps.insert d.node _).map fun _ r => r.work } : Work) = _
    rw [map_work_insert]
    simp only [MapRun.work, List.length_map]
    rfl
  case mapDone d =>
    unfold applyMapDone at h
    split at h <;> cases h
    show ({ s.work with maps := (s.maps.erase d.node).map fun _ r => r.work } : Work) = _
    rw [map_work_erase]
    rfl
  case mapAbort d =>
    cases h
    show ({ s.work with
      children := s.dropChildren d.node, maps := (s.maps.erase d.node).map fun _ r => r.work } : Work) = _
    rw [map_work_erase]
    rfl
  case signalUse d =>
    unfold applySignalUse at h
    split at h <;> cases h
    rfl
  case completed d => cases h; exact work_terminate s .completed
  case failed d => cases h; exact work_terminate s .failed
  case cancelled d => cases h; exact work_terminate s .cancelled
  all_goals cases h; rfl

/-- **Folding an event moves the work as the machine does.** -/
theorem apply_work {ev : Event}
    (h : s.apply quote fl ev = .ok s') : s'.work = s.work.step ev.data := by
  unfold apply at h
  split at h
  · cases h
  · cases hd : s.applyData quote fl ev with
    | error e => rw [hd] at h; cases h
    | ok s₁ =>
      rw [hd] at h
      cases h
      exact (work_finish s₁ ev).trans (work_applyData hd)

/-- The work of a state survives its encoding. -/
@[simp] theorem work_encoded (s : State) : s.encoded.work = s.work := by
  have hm : (s.maps.map fun _ m => m.encoded).map (fun _ r => r.work) = s.maps.map fun _ r => r.work := by
    apply Std.ExtTreeMap.ext_getElem?
    intro a
    simp only [Std.ExtTreeMap.getElem?_map]
    cases s.maps[a]? with
    | none => rfl
    | some m => simp [MapRun.encoded, MapRun.work]
  show ({ s.work with maps := (s.maps.map fun _ m => m.encoded).map fun _ r => r.work } : Work) = _
  rw [hm]
  rfl

end State

end Packtrail
