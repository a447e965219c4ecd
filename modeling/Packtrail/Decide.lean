import Packtrail.Lib.Emitter
import Packtrail.Graph
import Packtrail.Apply
import Packtrail.Validate

/-
# Deciding a command

The decider of `internal/fold/decide.go`, function by function and in its order. A decider program
runs on a session: the state, the events emitted so far (`d.out`) and the child ids a fork inherited
(`d.inherited`); `emit` applies each event to the state as soon as it is emitted. An error keeps the
state reached, as the Go code does ("on error st may be partially updated and must be discarded").

`enter` recurses through `choose`, `await`, `mapStart` and the rest back into itself. Here every
function that may enter another node takes the rest of the recursion as the argument `k`, and
`enterFuel` ties the knot with a budget: entering a node counts a step and the step limit stops the
recursion, so `max_steps - steps` nested entries are always enough (`Packtrail.Walk`).
-/

namespace Packtrail

open Emitter

/-- What stays fixed during one decision. -/
structure Ctx where
  x : Ext
  fl : Flow
  now : Time
  cmdID : String

abbrev Decider := Session State Event (List String)

abbrev DecM (α : Type) := Prog Err State Event (List String) α

def Payload.isForked : Payload → Bool
  | .forked _ => true
  | _ => false

/-- `event.New` with the decision's time, command and the next index. -/
def Ctx.event (c : Ctx) (data : Payload) (s : State) : Event :=
  { time := c.now, index := if data.isForked then 1 else s.events + 1, cmdID := c.cmdID, data }

def Ctx.apply (c : Ctx) : State → Event → Except Err State := State.apply c.x.quote c.fl

/-- `ChildID` (`decide.go:1175-1184`): always a valid token when the hash prefix is one. -/
def childID (x : Ext) (parent : String) (n : Nat) : String :=
  let id := parent ++ "-c" ++ toString n
  if validToken id then id else x.sha12 parent ++ "-c" ++ toString n

variable (c : Ctx)

def emit (data : Payload) : DecM Unit := emitWith c.apply (c.event data)

def State.alloc (s : State) : Nat := s.n + 1

/-! ## Ending an execution -/

/-- `cancelChildren` (`decide.go:440-450`) -/
def cancelChildren (s : State) (inherited : List String) : List String :=
  (s.children.toList.filter fun kc => kc.2.policy ≠ .abandon && !inherited.contains kc.2.childID).map
    fun kc => kc.2.childID

/-- `ownedChildren` (`decide.go:454-464`) -/
def ownedChildren (s : State) (owner : String) : List String :=
  (s.children.toList.filter fun kc => kc.2.owner == owner && kc.2.policy ≠ .abandon).map fun kc => kc.2.childID

def fail (reason msg node : String) : DecM Unit := do
  let s ← getSt
  let inherited ← getAux
  emit c (.failed { error := msg, reason, node, cancelChildren := cancelChildren s inherited })

def cancel (p : Cmd.CancelData) : DecM Unit := do
  let s ← getSt
  let inherited ← getAux
  emit c (.cancelled { reason := p.reason, cancelChildren := cancelChildren s inherited })

/-- `complete0` (`decide.go:409-438`): the output is the flow's output expression when set, else every
channel, else the last node's result. -/
def complete0 : DecM Unit := do
  let s ← getSt
  if c.fl.hasOutput then
    match c.x.eval c.fl.output (s.env none) with
    | .error e => fail c "expression_error" ("output: " ++ e) ""
    | .ok v =>
      match v.json with
      | .error e => fail c "expression_error" ("output: " ++ e) ""
      | .ok out =>
        if isNull (some out) then emit c (.completed { output := none })
        else if isObject (some out) then emit c (.completed { output := some out })
        else fail c "expression_error" "output must be an object or nil" ""
  else if !c.fl.channels.isEmpty then emit c (.completed { output := some (objectOf s.channels) })
  else emit c (.completed { output := s.results.getD s.lastNode none })

/-! ## Tasks -/

def timerAt (purpose : TimerPurpose) (after : Int) (key node : String) (gen attempt : Nat) : DecM Unit := do
  let s ← getSt
  let nr := s.alloc
  emit c (.timer
    { id := timerID nr, n := nr, at_ := c.now + after, purpose, key, node, generation := gen, attempt })

/-- One attempt of a task instance; `gen` 0 allocates a fresh generation. -/
def schedule (n : Node) (key owner : String) (index : Nat) (item : Raw) (rs : Resumption) (gen attempt : Nat) :
    DecM Unit := do
  let s ← getSt
  let gen := if gen = 0 then s.alloc else gen
  emit c (.scheduled
    { key, node := n.id, kind := n.kind, index, generation := gen, attempt, owner, item
      resume := rs.value, resumedBy := rs.resumer })
  if 0 < n.timeout then timerAt c .timeout n.timeout key n.id gen attempt
  else pure ()

/-- The scheduled task instance `ref` addresses, or nothing when the reference is stale. -/
def current (s : State) (ref : Cmd.TaskRef) : Option Task :=
  match s.tasks[ref.key]? with
  | none => none
  | some t =>
    if (t.generation : Int) = ref.generation ∧ (t.attempt : Int) = ref.attempt ∧ t.status = .scheduled then some t
    else none

/-- `CheckWrites` (`decide.go:180-193`): every channel declared and every value accepted by its reducer. -/
def checkWrites (x : Ext) (fl : Flow) (s : State) : List (String × Json) → Except String Unit
  | [] => .ok ()
  | (name, delta) :: ws =>
    match fl.channels[name]? with
    | none => .error ("write to undeclared channel " ++ x.quote name)
    | some ch =>
      match reduce x.quote ch.reducerOrDefault s.channels[name]? delta with
      | .error e => .error ("write to channel " ++ x.quote name ++ ": " ++ e)
      | .ok _ => checkWrites x fl s ws

/-- The problem of a completion and whether retrying could fix it (`decide.go:564-587`). -/
def checkCompletion (s : State) (n : Node) (t : Task) (output : Raw) (p : Cmd.CompleteData) :
    Option (String × Bool) :=
  if output.isSome && !isObject output then some ("output must be a JSON object", false)
  else match checkWrites c.x c.fl s p.writes.toList with
    | .error e => some (e, false)
    | .ok _ =>
      if p.next ≠ "" ∧ (t.owner ≠ "" ∨ n.allowsDynamic p.next = false) then
        some ("next " ++ c.x.quote p.next ++ " is not a declared dynamic successor of " ++ c.x.quote n.id, false)
      else match output with
        | none => none
        | some out =>
          if isNull (some n.outputSchema) then none
          else match c.x.validateSchema n.outputSchema out with
            | .error e => some (e, true)
            | .ok _ => none

/-- `overBudgetWith` (`decide.go:593-601`): the first budget the counters exceed once `usage` is added. -/
def overBudgetWith (s : State) (usage : SMap Rat) : Option String :=
  c.fl.budget.toList.findSome? fun (k, b) =>
    let v := s.counters.getD k 0 + usage.getD k 0
    if b < v then
      some ("counter " ++ c.x.quote k ++ " = " ++ c.x.formatG v ++ " exceeds budget " ++ c.x.formatG b)
    else none

/-! ## Entering and leaving nodes

`k` stands for `d.enter`. -/

section
variable (k : String → DecM Unit)

def advance (n : Node) (dyn : String) : DecM Unit :=
  let next := if dyn = "" then n.next else dyn
  if next = "" then complete0 c else k next

/-- `startChild` (`decide.go:1126-1171`) -/
def startChild (n : Node) (key owner : String) (index : Nat) (item : Raw) : DecM Unit := do
  let s ← getSt
  let isItem := owner = n.id
  let what := if isItem then "map " ++ c.x.quote n.id ++ ": item " ++ toString index
    else "subflow " ++ c.x.quote n.id
  let view : Option Task :=
    if isItem then
      some { key := "", node := n.id, kind := "", index, owner := n.id, generation := 0, attempt := 0
             status := .scheduled, item, resume := none, resumedBy := "", interrupt := none }
    else none
  let input : Except String Raw :=
    if n.hasInput then
      match c.x.eval n.input (s.env view) with
      | .error e => .error e
      | .ok v => v.json.map some
    else .ok (if isItem then item else s.input)
  match input with
  | .error e => fail c "expression_error" (what ++ ": input: " ++ e) n.id
  | .ok input =>
    if isObject input then
      let nr := s.alloc
      emit c (.child
        { node := n.id, childID := childID c.x s.execID nr, childN := nr, flow := n.flow, input
          policy := n.parentClose, key := if key = n.id then "" else key, owner, index })
    else
      let hint := if isItem ∧ n.hasInput = false then " (map the item to one with input)" else ""
      fail c "expression_error" (what ++ ": input must be an object" ++ hint) n.id

/-- The loop of `mapProgress` (`decide.go:1097-1112`); `limit` and the items are those of the open map. -/
def mapLoop (n : Node) (items : List Json) (limit : Int) : Nat → DecM Unit
  | 0 => pure ()
  | rounds + 1 => do
    let s ← getSt
    match s.maps[n.id]? with
    | none => throw (.panic "map closed while it is scheduled")
    | some m =>
      if (m.next : Int) - m.done < limit then
        match items[m.next]? with
        | none => pure ()
        | some item => do
          let key := itemKey n.id m.next
          if n.flow ≠ "" then startChild c n key n.id m.next (some item)
          else schedule c n key n.id m.next (some item) {} 0 1
          let s ← getSt
          if s.status.terminal then pure () else mapLoop n items limit rounds
      else pure ()

def mapLimit (m : MapRun) : Int := if m.maxParallel ≤ 0 then defaultMapParallel else m.maxParallel

/-- Schedules map items up to `max_parallel` and completes the map when every item settled. -/
def mapProgress (n : Node) : DecM Unit := do
  let s ← getSt
  match s.maps[n.id]? with
  | none => throw (.panic "no open map")
  | some m =>
    if m.done = m.items.length then do
      emit c (.mapDone { node := n.id })
      advance c k n ""
    else mapLoop c n m.items (mapLimit m) (m.items.length - m.next)

def encodeItems : List (Except String Json) → Except String (List Json)
  | [] => .ok []
  | v :: vs =>
    match v with
    | .error e => .error e
    | .ok j => (encodeItems vs).map (j :: ·)

def mapStart (n : Node) : DecM Unit := do
  let s ← getSt
  match c.x.eval n.overExpr (s.env none) with
  | .error e => fail c "expression_error" ("map " ++ c.x.quote n.id ++ ": over: " ++ e) n.id
  | .ok v =>
    if v.asList.isNone ∧ v.isNil = false then
      fail c "expression_error"
        ("map " ++ c.x.quote n.id ++ ": over must evaluate to a list, got " ++ v.typeName) n.id
    else match encodeItems (v.asList.getD []) with
      | .error e => throw (.other e)
      | .ok items => do
        emit c (.map { node := n.id, items, maxParallel := n.maxParallel })
        mapProgress c k n

/-- Delivers the oldest buffered signal of `n`'s name to await node `n`. -/
def consume (n : Node) : DecM Unit := do
  let s ← getSt
  match s.buffered.find? fun b => b.name == n.signal with
  | none => pure ()
  | some b => do
    emit c (.signalUse { node := n.id, name := b.name, id := b.id })
    advance c k n ""

def await (n : Node) : DecM Unit := do
  let s ← getSt
  let nr := s.alloc
  emit c (.await { node := n.id, signal := n.signal, timerID := timerID nr })
  emit c (.timer
    { id := timerID nr, n := nr, at_ := c.now + n.timeout, purpose := .await, node := n.id })
  consume c k n

/-! ### Choices -/

inductive Picked
  | rule (i : Nat) (r : Rule)
  | failed (i : Nat) (r : Rule) (err : String)
  | none

/-- `Program.Match` (`internal/expr/expr.go`) -/
def matchRule (x : Ext) (env : Env) (r : Rule) : Except String Bool :=
  match x.eval r.whenExpr env with
  | .error e => .error e
  | .ok v =>
    match v.asBool with
    | some b => .ok b
    | none => .error ("expr: " ++ x.quote r.whenExpr ++ " did not evaluate to bool")

/-- The loop of `choose` (`decide.go:797-823`) over the rules from number `i` on: the first rule that
matches, a rule whose error stops the choice, or the last default seen. -/
def pickRule (x : Ext) (n : Node) (env : Env) : Nat → List Rule → Option (Nat × Rule) → Picked
  | _, [], some (i, r) => .rule i r
  | _, [], none => .none
  | i, r :: rs, dflt =>
    if r.default then pickRule x n env (i + 1) rs (some (i, r))
    else match matchRule x env r with
      | .error e => if n.onError = .fail then .failed i r e else pickRule x n env (i + 1) rs dflt
      | .ok true => .rule i r
      | .ok false => pickRule x n env (i + 1) rs dflt

/-- Records the choice and follows it. -/
def route (n : Node) (i : Nat) (r : Rule) : DecM Unit := do
  emit c (.choice { node := n.id, rule := i, name := r.name, toNode := r.toNode, error := "" })
  if r.toNode = endTarget then complete0 c else k r.toNode

def choose (n : Node) : DecM Unit := do
  let s ← getSt
  match pickRule c.x n (s.env none) 0 n.rules none with
  | .rule i r => route c k n i r
  | .failed i r err => do
    emit c (.choice { node := n.id, rule := i, name := r.name, toNode := "", error := err })
    fail c "expression_error" err n.id
  | .none => throw (.panic "choice without a default rule")

/-! ### Fan-outs -/

/-- The loop of `fanout` (`decide.go:854-872`) -/
def startBranches (fan : String) : List String → DecM Unit
  | [] => pure ()
  | b :: bs => do
    emit c (.entered { node := b })
    match c.fl.node b with
    | none => throw (.panic "branch without a node")
    | some bn => do
      if bn.type = .subflow then startChild c bn b fan 0 none
      else schedule c bn b fan 0 none {} 0 1
      let s ← getSt
      if s.status.terminal then pure () else startBranches fan bs

def fanout (n : Node) : DecM Unit := do
  emit c (.fanout { node := n.id, join := (c.fl.joinOf n.id).getD "", branches := n.branches })
  startBranches c n.id n.branches

/-- `enter` (`decide.go:358-389`) with `k` for the nested entries. -/
def enterStep (id : String) : DecM Unit := do
  let s ← getSt
  match c.fl.node id with
  | none => fail c "error" ("unknown node " ++ c.x.quote id) id
  | some n =>
    if c.fl.maxStepsOrDefault < s.steps + 1 then
      fail c "max_steps"
        ("recursion limit reached: " ++ toString c.fl.maxStepsOrDefault ++ " node entries (max_steps)") id
    else do
      emit c (.entered { node := id })
      match n.type with
      | .task => schedule c n n.id "" 0 none {} 0 1
      | .choice => choose c k n
      | .fanout => fanout c n
      | .await => await c k n
      | .map => mapStart c k n
      | .subflow => startChild c n n.id "" 0 none
      | .join => fail c "error" ("node " ++ c.x.quote id ++ " of type join cannot be entered") id
      | .unknown t => fail c "error" ("node " ++ c.x.quote id ++ " of type " ++ t ++ " cannot be entered") id

end

def enterFuel : Nat → String → DecM Unit
  | 0 => enterStep c fun _ => throw .fuel
  | f + 1 => enterStep c (enterFuel f)

def enter (id : String) : DecM Unit := do
  let s ← getSt
  enterFuel c (c.fl.maxStepsOrDefault - s.steps) id

/-! ## Settling -/

/-- The cancel loops of `closeJoin` and `abortMap`: the tasks of `owner`, in key order. -/
def cancelTasks (owner reason : String) : List String → DecM Unit
  | [] => pure ()
  | key :: keys => do
    let s ← getSt
    match s.tasks[key]? with
    | none => throw (.panic "task vanished")
    | some t => do
      if t.owner = owner then emit c (.nodeCancel { key, node := t.node, reason }) else pure ()
      cancelTasks owner reason keys

/-- The outputs of the branches that succeeded (`decide.go:934-942`). -/
def joinOutput (s : State) (succeeded : List String) : Json :=
  objectOf (succeeded.foldl (fun m b => m.insert b (Raw.encoded (s.results.getD b none))) ∅)

def closeJoin (fan : String) (join : Node) (succeeded failed : List String) (ok : Bool) : DecM Unit := do
  let s ← getSt
  let cancelled := ownedChildren s fan
  cancelTasks c fan "join settled" s.tasks.keys
  let s ← getSt
  let out := joinOutput s succeeded
  emit c (.entered { node := join.id })
  emit c (.join
    { node := join.id, fanout := fan, succeeded, failed, ok, output := some out, cancelChildren := cancelled })
  if ok then advance c (enter c) join ""
  else if join.onFailure ≠ "" then enter c join.onFailure
  else
    fail c "join_failed"
      ("join " ++ c.x.quote join.id ++ " failed: branches " ++ State.showList failed ++ " did not succeed") join.id

/-- What the join of an open fan-out makes of its awaited branches: the succeeded and failed ones, and
its verdict once it has one (`decide.go:880-919`). -/
structure Tally where
  succeeded : List String
  failed : List String
  verdict : Option Bool

def branchOutcome (f : Fan) (b : String) : BranchStatus := f.branches.getD b .pending

def tally (kind : JoinKind) (waits : List String) (f : Fan) : Tally :=
  let succeeded := waits.filter fun b => branchOutcome f b = .completed
  let failed := waits.filter fun b => branchOutcome f b = .failed ∨ branchOutcome f b = .cancelled
  let pending := (waits.filter fun b => branchOutcome f b = .pending).length
  let need : Int := match kind with
    | .any => 1
    | .quorum q | .min q => q
    | _ => waits.length
  let verdict : Option Bool :=
    match kind with
    | .min _ => if 0 < pending then none else some (need ≤ succeeded.length)
    | _ =>
      if need ≤ (succeeded.length : Int) then some true
      else if need ≤ (succeeded.length : Int) + pending then none
      else some false
  { succeeded, failed, verdict }

/-- Settles the join of fan-out `fan` when its policy is decided. -/
def evalJoin (fan : String) : DecM Unit := do
  let s ← getSt
  match s.fans[fan]? with
  | none => throw (.panic "no open fan-out")
  | some f =>
    match c.fl.node f.join with
    | none => throw (.panic "fan-out without a join")
    | some join =>
      let t := tally join.joinKind (c.fl.waitFor join.id) f
      match t.verdict with
      | none => pure ()
      | some ok => closeJoin c fan join t.succeeded t.failed ok

/-- Closes map `n` after its item `index` failed permanently. -/
def abortMap (n : Node) (index : Nat) : DecM Unit := do
  let s ← getSt
  cancelTasks c n.id "map item failed" s.tasks.keys
  let s ← getSt
  emit c (.mapAbort { node := n.id, index, cancelChildren := ownedChildren s n.id })
  enter c n.onFailure

/-- `d.def.Node(t.Node)` of a task or child that is open. -/
def nodeOf (id : String) : DecM Node :=
  match c.fl.node id with
  | some n => pure n
  | none => throw (.panic "node of an open instance is missing")

def afterSettle (t : Task) (n : Node) (dyn : String) : DecM Unit := do
  let s ← getSt
  if s.status.terminal then pure ()
  else if (s.fans[t.owner]?).isSome then evalJoin c t.owner
  else if (s.maps[t.owner]?).isSome ∧ t.node = t.owner then mapProgress c (enter c) n
  else advance c (enter c) n dyn

/-- Retry when allowed, otherwise settle the instance as failed and let its owner react
(`decide.go:634-679`). -/
def taskFailed (t : Task) (msg : String) (retryable : Bool) (reason : String) (usage : SMap Rat) : DecM Unit := do
  let n ← nodeOf c t.node
  let s ← getSt
  let excess := overBudgetWith c s usage
  let willRetry : Bool := retryable && decide ((t.attempt : Int) < n.maxAttempts) && excess.isNone
  emit c (.nodeFail
    { key := t.key, node := t.node, generation := t.generation, attempt := t.attempt, error := msg, reason
      willRetry, usage })
  match excess with
  | some excess => fail c "budget_exceeded" excess t.node
  | none =>
    if willRetry then
      let delay := n.backoff (t.attempt + 1)
      if delay ≤ 0 then
        schedule c n t.key t.owner t.index t.item t.resumption t.generation (t.attempt + 1)
      else timerAt c .retry delay t.key t.node t.generation (t.attempt + 1)
    else do
      let s ← getSt
      if (s.fans[t.owner]?).isSome then evalJoin c t.owner
      else if n.onFailure ≠ "" then
        if (s.maps[t.owner]?).isSome ∧ t.node = t.owner then abortMap c n t.index
        else enter c n.onFailure
      else fail c reason ("node " ++ c.x.quote t.node ++ " failed: " ++ msg) t.node

def complete (p : Cmd.CompleteData) : DecM Unit := do
  let s ← getSt
  match current s p.toTaskRef with
  | none => pure ()
  | some t => do
    let n ← nodeOf c t.node
    let output : Raw := if isNull p.output then none else p.output
    match checkCompletion c s n t output p with
    | some (problem, retryable) => taskFailed c t problem retryable "invalid_output" p.usage
    | none => do
      emit c (.nodeDone
        { key := t.key, node := t.node, generation := t.generation, attempt := t.attempt, output
          writes := p.writes, next := p.next, usage := p.usage, cached := p.cached, cacheKey := p.cacheKey })
      let s ← getSt
      match overBudgetWith c s ∅ with
      | some excess => fail c "budget_exceeded" excess t.node
      | none => afterSettle c t n p.next

def failTask (p : Cmd.FailData) : DecM Unit := do
  let s ← getSt
  match current s p.toTaskRef with
  | none => pure ()
  | some t => taskFailed c t p.error p.retryable (if p.reason = "" then "error" else p.reason) p.usage

def interrupt (p : Cmd.InterruptData) : DecM Unit := do
  let s ← getSt
  match current s p.toTaskRef with
  | none => pure ()
  | some t => do
    emit c (.interrupted
      { key := t.key, node := t.node, generation := t.generation, payload := p.payload, usage := p.usage })
    let s ← getSt
    match overBudgetWith c s ∅ with
    | some excess => fail c "budget_exceeded" excess t.node
    | none => pure ()

/-- Whether `resume` takes the interrupted task `t` with key `key` (`decide.go:730`). -/
def resumes (p : Cmd.ResumeData) (key : String) (t : Task) : Bool :=
  t.status = .interrupted && (key == p.key || (p.key == "" && t.node == p.node))

def resume (p : Cmd.ResumeData) : DecM Unit := do
  let s ← getSt
  match s.tasks.toList.find? fun kt => resumes p kt.1 kt.2 with
  | none => pure ()
  | some (_, t) => do
    let n ← nodeOf c t.node
    -- a resume without a value resumes with null: an empty one would mark the run as fresh
    schedule c n t.key t.owner t.index t.item ⟨some p.value.encoded, p.resumer⟩ 0 1

/-! ## Signals and timers -/

def signal (p : Cmd.SignalData) : DecM Unit := do
  match checkToken c.x.quote "signal name" p.name with
  | some e => throw (.invalid e)
  | none => do
    let s ← getSt
    if (s.signalIDs[c.cmdID]?).isSome then pure ()
    else do
      emit c (.signal { name := p.name, id := c.cmdID, payload := p.payload })
      let s ← getSt
      match s.awaits.toList.find? fun na => na.2.signal == p.name with
      | none => pure ()
      | some (node, _) => do
        let n ← nodeOf c node
        consume c (enter c) n

def awaitTimeout (tm : Timer) : DecM Unit := do
  let s ← getSt
  match s.awaits[tm.node]? with
  | none => pure ()
  | some a =>
    if a.timerID = tm.id then do
      let n ← nodeOf c tm.node
      emit c (.awaitTimeout { node := n.id, toNode := n.onTimeout })
      if n.onTimeout = "" then
        fail c "await_timeout"
          ("await " ++ c.x.quote n.id ++ ": no signal " ++ c.x.quote n.signal ++ " before timeout") n.id
      else enter c n.onTimeout
    else pure ()

def timer (p : Cmd.TimerData) : DecM Unit := do
  let s ← getSt
  match s.timers[p.timerID]? with
  | none => pure ()
  | some tm => do
    emit c (.fired { id := tm.id })
    let s ← getSt
    match tm.purpose with
    | .retry =>
      match s.tasks[tm.key]? with
      | none => pure ()
      | some t =>
        if t.generation = tm.generation ∧ t.status = .retrying ∧ t.attempt + 1 = tm.attempt then do
          let n ← nodeOf c t.node
          schedule c n t.key t.owner t.index t.item t.resumption t.generation tm.attempt
        else pure ()
    | .timeout =>
      match current s ⟨tm.key, tm.generation, tm.attempt⟩ with
      | none => pure ()
      | some t => taskFailed c t "attempt timed out" true "timeout" ∅
    | .await => awaitTimeout c tm

/-! ## Children -/

/-- `childDone` (`decide.go:1186-1250`). Child ids are distinct, so the order in which Go ranges over
the map does not matter. -/
def childDone (p : Cmd.ChildDoneData) : DecM Unit := do
  let s ← getSt
  match s.children.toList.find? fun kc => kc.2.childID == p.childID with
  | none => pure ()
  | some (key, ch) => do
    let node := ch.nodeOf key
    emit c (.childDone
      { node, key := if key = node then "" else key, childID := p.childID, status := p.status
        output := p.output, error := p.error, counters := p.counters })
    let s ← getSt
    match overBudgetWith c s ∅ with
    | some excess => fail c "budget_exceeded" excess node
    | none => do
      let n ← nodeOf c node
      let ok := p.status == "completed"
      if (s.fans[ch.owner]?).isSome then evalJoin c ch.owner
      else if (s.maps[ch.owner]?).isSome ∧ ch.owner = node then
        if ok then mapProgress c (enter c) n
        else if n.onFailure ≠ "" then abortMap c n ch.index
        else fail c "child_failed" ("map " ++ c.x.quote node ++ ": item " ++ toString ch.index ++ " (" ++ p.childID ++
          ") " ++ p.status ++ ": " ++ p.error) node
      else if ok then advance c (enter c) n ""
      else if n.onFailure ≠ "" then enter c n.onFailure
      else fail c "child_failed" ("subflow " ++ c.x.quote node ++ " (" ++ p.childID ++ ") " ++ p.status ++ ": " ++
        p.error) node

/-! ## Updates -/

def update (writes : SMap Json) : DecM Unit := do
  let s ← getSt
  if writes.isEmpty then throw (.invalid "update without writes")
  else if (s.updateIDs[c.cmdID]?).isSome then pure ()
  else match checkWrites c.x c.fl s writes.toList with
    | .error e => throw (.invalid e)
    | .ok _ => emit c (.update { id := c.cmdID, writes })

/-! ## Starting -/

/-- `attrs` (`decide.go:335-355`) -/
def searchAttrs (input : Json) : SMap String :=
  c.fl.searchAttributes.foldl (fun m key e =>
    match c.x.evalInput e input with
    | .error _ => m
    | .ok v => if v.isNil then m else m.insert key v.text) ∅

/-- `CheckJoin` (`decide.go:54-61`) -/
def checkJoin (st : State) (flowName : String) : Except Err Unit :=
  if st.flow = flowName then .ok ()
  else .error (.conflict (st.execID ++ " is an execution of " ++ st.flow ++ ", not " ++ flowName))

def start (p : Cmd.StartData) : DecM Unit := do
  let s ← getSt
  if s.exists then
    match checkJoin s p.flow with
    | .ok _ => pure ()
    | .error e => throw e
  else
    let input : Json := if isNull p.input then .obj [] else p.input.encoded
    if isObject (some input) then
      match c.x.flowHash c.fl with
      | .error e => throw (.other e)
      | .ok hash => do
        emit c (.started
          { execID := s.execID, flow := c.fl.name, flowHash := hash, input := some input, parent := p.parent
            attrs := searchAttrs c input })
        enter c (c.fl.startNode.getD "")
    else throw (.invalid "input must be a JSON object")

/-! ## Forking -/

def rekickTasks : List String → DecM Unit
  | [] => pure ()
  | key :: keys => do
    let s ← getSt
    match s.tasks[key]? with
    | none => throw (.panic "task vanished")
    | some t => do
      if t.status = .interrupted then pure ()
      else do
        let n ← nodeOf c t.node
        schedule c n t.key t.owner t.index t.item t.resumption 0 1
      rekickTasks keys

def rekickAwaits : List String → DecM Unit
  | [] => pure ()
  | node :: nodes => do
    let n ← nodeOf c node
    await c (enter c) n
    rekickAwaits nodes

def rekickChildren : List String → DecM Unit
  | [] => pure ()
  | key :: keys => do
    let s ← getSt
    -- a child that cannot start fails the fork, which closes every child: stop there
    if s.status.terminal then pure ()
    else match s.children[key]? with
      | none => throw (.panic "child vanished")
      | some ch => do
        let n ← nodeOf c (ch.nodeOf key)
        let item : Raw := match s.maps[ch.owner]? with
          | some m => m.items[ch.index]?
          | none => none
        startChild c n key ch.owner ch.index item
        rekickChildren keys

/-- Re-dispatches everything in flight in a freshly forked state. -/
def rekick : DecM Unit := do
  let s ← getSt
  rekickTasks c s.tasks.keys
  let s ← getSt
  rekickAwaits c s.awaits.keys
  let s ← getSt
  setAux (s.children.toList.map fun kc => kc.2.childID)
  rekickChildren c s.children.keys

/-! ## Decisions -/

/-- The events of a decision (none when it is refused with an error) and the state it leaves behind. -/
structure Outcome where
  result : Except Err (List Event)
  state : State

def runDecision (m : DecM Unit) (s : State) : Outcome :=
  match m { st := s, out := [], aux := [] } with
  | .ok _ d => ⟨.ok d.out, d.st⟩
  | .error e d => ⟨.error e, d.st⟩

def decideData : CmdData → DecM Unit
  | .start p => start c p
  | .complete p => complete c p
  | .fail p => failTask c p
  | .interrupt p => interrupt c p
  | .resume p => resume c p
  | .signal p => signal c p
  | .cancel p => cancel c p
  | .timer p => timer c p
  | .childDone p => childDone c p
  | .update writes => update c writes
  | .undecodable _ e => throw (.invalid e)
  | .operational t => throw (.invalid (t ++ " is not decided by fold"))

def CmdData.isStart : CmdData → Bool
  | .start _ => true
  | .undecodable t _ => t == "start"
  | _ => false

def CmdData.isUpdate : CmdData → Bool
  | .update _ => true
  | .undecodable t _ => t == "update"
  | _ => false

/-- `Decide` (`decide.go:79-124`) -/
def decide (x : Ext) (fl : Flow) (s : State) (cmd : Command) (now : Time) : Outcome :=
  let c : Ctx := { x, fl, now, cmdID := cmd.id }
  if cmd.data.isStart then runDecision (decideData c cmd.data) s
  else if !s.exists then ⟨.error (.notFound s.execID), s⟩
  else if s.status.terminal then
    if cmd.data.isUpdate then ⟨.error (.rejected ("execution " ++ s.execID ++ " is " ++ s.status.name)), s⟩
    else ⟨.ok [], s⟩
  else runDecision (decideData c cmd.data) s

/-- The program of `DecideFork` (`decide.go:135-176`) for an execution that does not exist yet. -/
def forkProg (c : Ctx) (src : State) (source : String) (seq : Nat) (writes : SMap Json) : DecM Unit := do
  let s ← getSt
  emit c (.forked { execID := s.execID, source, seq, state := src.marshal })
  let s ← getSt
  if writes.isEmpty then
    if s.status.terminal then pure () else rekick c
  else if s.status.terminal then throw (.invalid "cannot edit a fork of a finished execution")
  else match checkWrites c.x c.fl s writes.toList with
    | .error e => throw (.invalid ("fork writes: " ++ e))
    | .ok _ => do
      -- the edit lands before anything in flight is dispatched again
      emit c (.update { id := c.cmdID, writes })
      rekick c

def decideFork (x : Ext) (fl : Flow) (s src : State) (source : String) (seq : Nat) (cmdID : String)
    (writes : SMap Json) (now : Time) : Outcome :=
  if s.exists then ⟨.ok [], s⟩
  else runDecision (forkProg { x, fl, now, cmdID } src source seq writes) s

/-- `Continue` (`decide.go:217-244`) -/
def continueAsNew (x : Ext) (fl : Flow) (s : State) (seg : Segment) (cmdID : String) (now : Time) : Outcome :=
  if !s.exists || s.status.terminal then ⟨.ok [], s⟩
  else
    let carried := unmarshal s.marshal
    let state := { carried with segments := carried.segments ++ [seg] }.marshal
    runDecision (emit { x, fl, now, cmdID } (.continued { state, segment := seg })) s

/-- The program of `Abort` (`decide.go:251-271`). -/
def abortProg (c : Ctx) (first : Option Event) (reason msg : String) : DecM Unit := do
  let s ← getSt
  if s.exists then
    if s.status.terminal then pure () else fail c reason msg ""
  else match first with
    | none => throw (.invalid "cannot abort a missing execution")
    | some ev => do
      emit c ev.data
      let s ← getSt
      if s.status.terminal then pure () else fail c reason msg ""

def abort (x : Ext) (fl : Flow) (s : State) (first : Option Event) (cmdID reason msg : String) (now : Time) :
    Outcome :=
  runDecision (abortProg { x, fl, now, cmdID } first reason msg) s

end Packtrail
