import Packtrail.Event

/-
# Folding one event into the state

| here | there |
| --- | --- |
| `State.apply`                 | `State.Apply` (`internal/fold/state.go:363-400`) |
| `State.applyData`             | `apply`, `applyNode`, `applyStructure`, `applyWait` (`:402-433`, `:480-508`, `:614-710`): one switch over the payload, in four Go functions for size |
| `applyStarted` … `recomputeStatus` | the functions of the same names (`:435-478`, `:510-612`, `:712-876`) |
| `fold`                        | `Fold` (`:344-361`) |

`Err` also carries the Go outcomes that are not error values: a nil dereference or an index out of
range (`panic`), and the exhaustion of the recursion budget of `Packtrail.Decide` (`fuel`), which the
source does not have. Both are shown never to happen.
-/

namespace Packtrail

inductive Err
  | notFound (msg : String)
  | invalid (msg : String)
  | rejected (msg : String)
  | conflict (msg : String)
  | apply (msg : String)
  | other (msg : String)
  | panic (msg : String)
  | fuel
  deriving DecidableEq, Repr

namespace State

def addUsage (s : State) (u : SMap Rat) : State :=
  { s with counters := u.foldl (fun m k v => m.insert k (m.getD k 0 + v)) s.counters }

def applyStarted (s : State) (fl : Flow) (time : Time) (d : Event.Started) : State :=
  { s with
    execID := d.execID, flow := d.flow, flowHash := d.flowHash
    input := d.input, parent := d.parent, attrs := d.attrs
    status := .running, created := time
    channels := fl.channels.foldl
      (fun m name c => if isNull (some c.default) then m else m.insert name c.default) s.channels }

def applyForked (d : Event.Forked) : State :=
  { unmarshal d.state with
    execID := d.execID, forkedFrom := d.source, forkSeq := d.seq
    base := 0, segments := [], timers := ∅, events := 0, lastSeq := 0 }

/-- Closes every open structure: nothing is in flight after a final status. -/
def terminate (s : State) (st : Status) : State :=
  { s with status := st, tasks := ∅, fans := ∅, maps := ∅, awaits := ∅, children := ∅, timers := ∅ }

def raiseNext (s : State) (owner node : String) (index : Nat) : SMap MapRun :=
  match s.maps[owner]? with
  | some m => if node = owner then s.maps.insert owner { m with next := max m.next (index + 1) } else s.maps
  | none => s.maps

def applyScheduled (s : State) (d : Event.Scheduled) : State :=
  let interrupt : Raw :=
    match s.tasks[d.key]? with
    | some prev => if d.resume.isSome then prev.interrupt else none
    | none => none
  let t : Task :=
    { key := d.key, node := d.node, kind := d.kind, index := d.index, owner := d.owner
      generation := d.generation, attempt := d.attempt, status := .scheduled, item := d.item
      resume := d.resume, resumedBy := d.resumedBy, interrupt }
  { s with
    tasks := s.tasks.insert d.key t, n := max s.n d.generation
    maps := s.raiseNext d.owner d.node d.index }

/-- The writes of a completion or an update, in the order of their names. -/
def reduceAll (quote : String → String) (fl : Flow) (channels : SMap Json) :
    List (String × Json) → Except String (SMap Json)
  | [] => .ok channels
  | (name, delta) :: ws =>
    match reduce quote (fl.reducerOf name) channels[name]? delta with
    | .ok v => reduceAll quote fl (channels.insert name v) ws
    | .error e => .error e

/-- Removes an instance and records its outcome on its fan-out. -/
def settleTask (s : State) (key : String) (outcome : BranchStatus) : State :=
  match s.tasks[key]? with
  | none => s
  | some t =>
    { s with
      tasks := s.tasks.erase key
      fans := match s.fans[t.owner]? with
        | some f => s.fans.insert t.owner { f with branches := f.branches.insert t.node outcome }
        | none => s.fans }

/-- The output of an item, into its map's results in item order. -/
def recordItem (s : State) (owner : String) (m : MapRun) (index : Nat) (output : Raw) : Except Err State :=
  if index < m.outputs.length then
    .ok { s with maps := s.maps.insert owner { m with outputs := m.outputs.set index output, done := m.done + 1 } }
  else .error (.panic "index out of range")

def recordResult (s : State) (node : String) (output : Raw) : State :=
  { s with results := s.results.insert node output, lastNode := node, errors := s.errors.erase node }

/-- The output of a task: its map's when it is an item of an open one, else its node's. -/
def recordOutput (s : State) (t : Task) (output : Raw) : Except Err State :=
  match s.maps[t.owner]? with
  | some m =>
    if t.node = t.owner then s.recordItem t.owner m t.index output else .ok (s.recordResult t.node output)
  | none => .ok (s.recordResult t.node output)

def applyNodeDone (s : State) (quote : String → String) (fl : Flow) (d : Event.NodeDone) : Except Err State :=
  match s.tasks[d.key]? with
  | none => .error (.apply ("completion of unknown task " ++ quote d.key))
  | some t =>
    match reduceAll quote fl s.channels d.writes.toList with
    | .error e => .error (.apply e)
    | .ok channels =>
      (({ s with channels }.addUsage d.usage).recordOutput t d.output).map (settleTask · d.key .completed)

def applyNodeFail (s : State) (d : Event.NodeFail) : State :=
  match s.tasks[d.key]? with
  | none => s
  | some t =>
    let s := s.addUsage d.usage
    if d.willRetry then { s with tasks := s.tasks.insert d.key { t with status := .retrying } }
    else
      let index := match s.maps[t.owner]? with
        | some _ => if t.node = t.owner then some t.index else none
        | none => none
      { s with
        errors := s.errors.insert t.node { error := d.error, reason := d.reason, attempt := d.attempt, index }
        lastNode := t.node }.settleTask d.key .failed

def applyInterrupted (s : State) (quote : String → String) (d : Event.Interrupted) : Except Err State :=
  match s.tasks[d.key]? with
  | none => .error (.apply ("interrupt of unknown task " ++ quote d.key))
  | some t =>
    .ok ({ s with tasks := s.tasks.insert d.key { t with status := .interrupted, interrupt := d.payload } }.addUsage
      d.usage)

/-- The children owned by `owner`, by their nodes, in key order. -/
def ownedNodes (s : State) (owner : String) : List String :=
  (s.children.toList.filter fun kc => kc.2.owner == owner).map fun kc => kc.2.nodeOf kc.1

def dropChildren (s : State) (owner : String) : SMap ChildState :=
  s.children.filter fun _ c => c.owner ≠ owner

/-- `%v` of a list of strings. -/
def showList (l : List String) : String := "[" ++ " ".intercalate l ++ "]"

def applyJoin (s : State) (d : Event.Join) : State :=
  let s := match s.fans[d.fanout]? with
    | some f =>
      { s with
        branches := (s.ownedNodes d.fanout).foldl (fun m b => m.insert b .cancelled) f.branches
        children := s.dropChildren d.fanout }
    | none => s
  { s with
    fans := s.fans.erase d.fanout
    results := s.results.insert d.node d.output
    lastNode := d.node
    errors := if d.ok then s.errors.erase d.node
      else s.errors.insert d.node
        { error := "branches " ++ showList d.failed ++ " did not succeed", reason := "join_failed" } }

def applyMapDone (s : State) (quote : String → String) (d : Event.MapDone) : Except Err State :=
  match s.maps[d.node]? with
  | none => .error (.apply ("completion of unknown map " ++ quote d.node))
  | some m =>
    .ok { s with
      results := s.results.insert d.node (some (.arr (m.outputs.map Raw.encoded)))
      lastNode := d.node
      maps := s.maps.erase d.node
      errors := s.errors.erase d.node }

/-- The pending timers without the one of `node`'s await. -/
def withoutAwaitTimer (s : State) (node : String) : SMap Timer :=
  match s.awaits[node]? with
  | some a => s.timers.erase a.timerID
  | none => s.timers

def signalIDWindow : Time := 24 * 3600 * 1000000000
def maxSignalIDs : Nat := 10000

/-- Oldest first, ties by id. -/
def olderID (a b : String × Time) : Bool := if a.2 = b.2 then a.1 ≤ b.1 else a.2 ≤ b.2

/-- Records `id` at time `at_` and forgets ids older than the window, then the oldest beyond the cap. -/
def rememberID (m : SMap Time) (id : String) (at_ : Time) : SMap Time :=
  let m := (m.insert id at_).filter fun _ t => at_ - t ≤ signalIDWindow
  if m.size ≤ maxSignalIDs then m
  else ((m.toList.mergeSort olderID).take (m.size - maxSignalIDs)).foldl (fun m kv => m.erase kv.1) m

def applySignalUse (s : State) (quote : String → String) (d : Event.SignalUse) : Except Err State :=
  match s.buffered.find? fun b => b.id == d.id with
  | none => .error (.apply ("consumed signal " ++ quote d.id ++ " is not buffered"))
  | some b =>
    .ok { s with
      buffered := s.buffered.eraseP fun b => b.id == d.id
      signals := s.signals.insert d.name b.payload
      results := s.results.insert d.node b.payload
      lastNode := d.node
      timers := s.withoutAwaitTimer d.node
      awaits := s.awaits.erase d.node }

def applyChild (s : State) (d : Event.Child) : State :=
  { s with
    children := s.children.insert d.instanceKey
      { childID := d.childID, flow := d.flow, policy := d.policy, node := d.node, owner := d.owner, index := d.index }
    n := max s.n d.childN
    maps := s.raiseNext d.owner d.node d.index }

/-- The outcome of a plain subflow or of a fan-out branch. -/
def childResult (s : State) (d : Event.ChildDone) (ok : Bool) : State :=
  { s with
    results := s.results.insert d.node d.output
    lastNode := d.node
    errors := if ok then s.errors.erase d.node
      else s.errors.insert d.node { error := d.error, reason := "child_failed" } }

def applyChildDone (s : State) (d : Event.ChildDone) : Except Err State :=
  let ok := d.status == "completed"
  let child := s.children[d.instanceKey]?
  let s := { s with children := s.children.erase d.instanceKey }.addUsage d.counters
  match child with
  | none => .ok (s.childResult d ok)
  | some c =>
    -- a map item: its output goes to the map's results, in item order
    match if c.owner = d.node then s.maps[c.owner]? else none with
    | some m =>
      if ok then s.recordItem c.owner m c.index d.output
      else .ok { s with
        errors := s.errors.insert d.node { error := d.error, reason := "child_failed", index := some c.index }
        lastNode := d.node }
    | none =>
      let fans := match s.fans[c.owner]? with
        | some f => s.fans.insert c.owner
            { f with branches := f.branches.insert d.node (if ok then .completed else .failed) }
        | none => s.fans
      .ok ({ s with fans }.childResult d ok)

def applyUpdate (s : State) (quote : String → String) (fl : Flow) (d : Event.Update) (time : Time) :
    Except Err State :=
  match reduceAll quote fl s.channels d.writes.toList with
  | .error e => .error (.apply e)
  | .ok channels => .ok { s with channels, updateIDs := rememberID s.updateIDs d.id time }

def applyData (s : State) (quote : String → String) (fl : Flow) (ev : Event) : Except Err State :=
  match ev.data with
  | .started d => .ok (s.applyStarted fl ev.time d)
  | .forked d => .ok (applyForked d)
  | .continued d => .ok { unmarshal d.state with base := ev.index }
  | .completed d => .ok { s.terminate .completed with output := d.output }
  | .failed d => .ok { s.terminate .failed with error := d.error, reason := d.reason, failedNode := d.node }
  | .cancelled d => .ok { s.terminate .cancelled with reason := d.reason }
  | .entered d => .ok { s with visits := s.visits.insert d.node (s.visits.getD d.node 0 + 1), steps := s.steps + 1 }
  | .scheduled d => .ok (s.applyScheduled d)
  | .nodeDone d => s.applyNodeDone quote fl d
  | .nodeFail d => .ok (s.applyNodeFail d)
  | .interrupted d => s.applyInterrupted quote d
  | .nodeCancel d => .ok (s.settleTask d.key .cancelled)
  | .choice _ => .ok s
  | .update d => s.applyUpdate quote fl d ev.time
  | .fanout d =>
    let f : Fan := { join := d.join, branches := d.branches.foldl (fun m b => m.insert b .pending) ∅ }
    .ok { s with fans := s.fans.insert d.node f }
  | .join d => .ok (s.applyJoin d)
  | .map d =>
    let m : MapRun :=
      { items := d.items, outputs := d.items.map fun _ => none, done := 0, next := 0, maxParallel := d.maxParallel }
    .ok { s with maps := s.maps.insert d.node m }
  | .mapDone d => s.applyMapDone quote d
  | .mapAbort d => .ok { s with children := s.dropChildren d.node, maps := s.maps.erase d.node }
  | .await d => .ok { s with awaits := s.awaits.insert d.node ⟨d.signal, d.timerID⟩ }
  | .awaitTimeout d => .ok { s with timers := s.withoutAwaitTimer d.node, awaits := s.awaits.erase d.node }
  | .signal d =>
    .ok { s with
      buffered := s.buffered ++ [⟨d.name, d.id, d.payload⟩], signalIDs := rememberID s.signalIDs d.id ev.time }
  | .signalUse d => s.applySignalUse quote d
  | .child d => .ok (s.applyChild d)
  | .childDone d => s.applyChildDone d
  | .timer d => .ok { s with timers := s.timers.insert d.id d, n := max s.n d.n }
  | .fired d => .ok { s with timers := s.timers.erase d.id }

/-- Running or waiting: an execution waits when nothing is in flight and it only waits for a signal or
a resume. -/
def recomputeStatus (s : State) : Status :=
  if s.tasks.toList.any fun kt => kt.2.status ≠ .interrupted then .running
  else if !s.children.isEmpty || !s.maps.isEmpty then .running
  else if !s.awaits.isEmpty || !s.tasks.isEmpty then .waiting
  else .running

/-- What `Apply` does after the event's own change. -/
def finish (s : State) (ev : Event) : State :=
  { s with
    events := s.events + 1
    updated := if ev.time = 0 then s.updated else ev.time
    status := if s.status.terminal || s.status = .unset then s.status else s.recomputeStatus }

/-- The index `ev` must have: an event that replaces the state is checked against what it brings. -/
def expectedIndex (s : State) (ev : Event) : Nat :=
  match ev.data with
  | .forked _ => 1
  | .continued d => (unmarshal d.state).events + 1
  | _ => s.events + 1

def apply (quote : String → String) (fl : Flow) (s : State) (ev : Event) : Except Err State :=
  if ev.index ≠ 0 ∧ ev.index ≠ s.expectedIndex ev then
    .error (.apply ("event index " ++ toString ev.index ++ ", expected " ++ toString (s.expectedIndex ev) ++
      " (gap in the log)"))
  else (s.applyData quote fl ev).map fun s' => s'.finish ev

end State

end Packtrail
