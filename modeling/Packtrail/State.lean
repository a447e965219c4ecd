import Packtrail.Flow

/-
# The state of an execution

| here | there |
| --- | --- |
| `Status`, `TaskStatus`, `BranchStatus` | `internal/fold/state.go:33-63` |
| `Task`, `Fan`, `MapRun`, `AwaitState`, `ChildState`, `Buffered`, `NodeError`, `State` | `internal/fold/state.go:65-259` |
| `ParentRef`, `Segment`, `Timer`        | `event/event.go:103-108`, `:147-153`, `:383-392` |
| `State.new`, `State.exists`            | `New`, `Exists` (`internal/fold/state.go:243-249`, `:318`) |
| `State.encoded`, `State.marshal`, `unmarshal` | `json.Marshal(s)` and `Unmarshal` (`:321-341`) |
| `Env`, `State.env`                     | `ContextView` and `Env` (`internal/fold/view.go`) |

A time is the number of nanoseconds since Go's zero time. `State.Archived` is left out: only readers
of archived executions set it and the fold never looks at it.
-/

namespace Packtrail

abbrev Time := Int

inductive Status
  | unset | running | waiting | completed | failed | cancelled
  deriving DecidableEq, Repr

def Status.name : Status → String
  | .unset => ""
  | .running => "running"
  | .waiting => "waiting"
  | .completed => "completed"
  | .failed => "failed"
  | .cancelled => "cancelled"

def Status.terminal : Status → Bool
  | .completed | .failed | .cancelled => true
  | _ => false

inductive TaskStatus
  | scheduled | retrying | interrupted
  deriving DecidableEq, Repr

inductive BranchStatus
  | pending | completed | failed | cancelled
  deriving DecidableEq, Repr

/-- An active task instance: a plain task, a fan-out branch or a map item. -/
structure Task where
  key : String
  node : String
  kind : String
  index : Nat
  owner : String
  generation : Nat
  attempt : Nat
  status : TaskStatus
  item : Raw
  resume : Raw
  resumedBy : String
  interrupt : Raw

/-- The resume value of a task instance and who resumed it. -/
structure Resumption where
  value : Raw := none
  resumer : String := ""

def Task.resumption (t : Task) : Resumption := ⟨t.resume, t.resumedBy⟩

structure Fan where
  join : String
  branches : SMap BranchStatus

structure MapRun where
  items : List Json
  outputs : List Raw
  done : Nat
  next : Nat
  maxParallel : Int

structure AwaitState where
  signal : String
  timerID : String
  deriving DecidableEq, Repr

structure ChildState where
  childID : String
  flow : String
  policy : ParentClose
  node : String
  owner : String
  index : Nat
  deriving DecidableEq, Repr

def ChildState.nodeOf (c : ChildState) (key : String) : String := if c.node = "" then key else c.node

structure Buffered where
  name : String
  id : String
  payload : Raw

structure NodeError where
  error : String
  reason : String
  attempt : Nat := 0
  index : Option Nat := none
  deriving DecidableEq, Repr

structure ParentRef where
  execID : String
  node : String
  childN : Nat
  deriving DecidableEq, Repr

/-- A stretch of history archived by a continuation. -/
structure Segment where
  object : String
  firstIndex : Nat
  lastIndex : Nat
  firstSeq : Nat
  lastSeq : Nat
  deriving DecidableEq, Repr

inductive TimerPurpose
  | retry | timeout | await
  deriving DecidableEq, Repr

structure Timer where
  id : String
  n : Nat
  at_ : Time
  purpose : TimerPurpose
  key : String := ""
  node : String := ""
  generation : Nat := 0
  attempt : Nat := 0
  deriving DecidableEq, Repr

structure State where
  execID : String
  flow : String := ""
  flowHash : String := ""
  status : Status := .unset
  input : Raw := none
  parent : Option ParentRef := none
  attrs : SMap String := ∅
  channels : SMap Json := ∅
  results : SMap Raw := ∅
  lastNode : String := ""
  visits : SMap Nat := ∅
  steps : Nat := 0
  signals : SMap Raw := ∅
  buffered : List Buffered := []
  signalIDs : SMap Time := ∅
  updateIDs : SMap Time := ∅
  counters : SMap Rat := ∅
  branches : SMap BranchStatus := ∅
  errors : SMap NodeError := ∅
  tasks : SMap Task := ∅
  fans : SMap Fan := ∅
  maps : SMap MapRun := ∅
  awaits : SMap AwaitState := ∅
  children : SMap ChildState := ∅
  timers : SMap Timer := ∅
  n : Nat := 0
  output : Raw := none
  error : String := ""
  reason : String := ""
  failedNode : String := ""
  created : Time := 0
  updated : Time := 0
  forkedFrom : String := ""
  forkSeq : Nat := 0
  base : Nat := 0
  segments : List Segment := []
  lastSeq : Nat := 0
  events : Nat := 0

def State.new (execID : String) : State := { execID }

def State.exists (s : State) : Bool := 0 < s.events

/-! ## The JSON encoding

Encoding a state and decoding it again keeps every field but one detail: a nil message held in a map
or a list (`results`, `signals`, the outputs of a map) is written as `null` and comes back as that
text. Messages in fields marked `omitempty` stay absent. -/

def MapRun.encoded (m : MapRun) : MapRun := { m with outputs := m.outputs.map fun r => some r.encoded }

/-- The state decoded from the encoding of `s`. -/
def State.encoded (s : State) : State :=
  { s with
    results := s.results.map fun _ r => some r.encoded
    signals := s.signals.map fun _ r => some r.encoded
    maps := s.maps.map fun _ m => m.encoded }

/-- The JSON text of a state, by the state it decodes to. -/
structure Encoding where
  decoded : State

def State.marshal (s : State) : Encoding := ⟨s.encoded⟩

def unmarshal (b : Encoding) : State := b.decoded

/-! ## The view expressions are evaluated on -/

/-- `ContextView` after its own trip through JSON, which is what `Env` hands to an expression. -/
structure Env where
  input : Json
  channels : SMap Json
  results : SMap Json
  lastNode : String
  visits : SMap Nat
  signals : SMap Json
  branches : SMap BranchStatus
  counters : SMap Rat
  errors : SMap NodeError
  item : Json := .null
  index : Option Nat := none
  resume : Raw := none
  resumedBy : String := ""
  interrupt : Raw := none

/-- What a view adds for a task instance: its resume value, and its item when it belongs to an open map. -/
def State.withTask (s : State) (e : Env) (t : Task) : Env :=
  let e := { e with resume := t.resume }
  let e := if t.resume.isSome then { e with resumedBy := t.resumedBy, interrupt := t.interrupt } else e
  if (s.maps[t.owner]?).isSome && t.node == t.owner then { e with item := t.item.encoded, index := some t.index }
  else e

def State.env (s : State) (t : Option Task) : Env :=
  let e : Env :=
    { input := s.input.getD (.obj []), channels := s.channels
      results := s.results.map fun _ r => r.encoded
      lastNode := s.lastNode, visits := s.visits
      signals := s.signals.map fun _ r => r.encoded
      branches := s.branches, counters := s.counters, errors := s.errors }
  match t with
  | none => e
  | some t => s.withTask e t

/-! ## Code outside the repository -/

/-- An evaluated expression, by what the engine reads of it: `v.(bool)`, `v.([]any)` with each item's
JSON encoding, `v == nil`, `%T`, `json.Marshal(v)` and `fmt.Sprint(v)`. -/
structure Value where
  asBool : Option Bool := none
  asList : Option (List (Except String Json)) := none
  isNil : Bool := false
  typeName : String := ""
  json : Except String Json := .ok .null
  text : String := ""

/-- The libraries the program calls: expr-lang (`compileValue`, `compilePredicate`, `eval`, and
`evalInput` for the search attributes, which see the input alone), jsonschema, the content hash of a
definition, the hexadecimal SHA-256 prefix of a parent id, and `fmt`'s `%q` and `%g`. -/
structure Ext where
  compileValue : String → Except String Unit
  compilePredicate : String → Except String Unit
  eval : String → Env → Except String Value
  evalInput : String → Json → Except String Value
  compileSchema : Json → Except String Unit
  validateSchema : Json → Json → Except String Unit
  flowHash : Flow → Except String String
  sha12 : String → String
  quote : String → String
  formatG : Rat → String

end Packtrail
