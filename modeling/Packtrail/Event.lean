import Packtrail.State

/-
# Events and commands

The payload structures of `event/event.go:110-398`, one constructor of `Payload` for each, and the
commands of `internal/cmd/cmd.go:35-168` with their payloads decoded. The type of an event is the
constructor of its payload and its version is always 1, so neither is a field here. `seq` and
`decisionEnd` are set when an event is read back from the log.
-/

namespace Packtrail

namespace Event

structure Started where
  execID : String
  flow : String
  flowHash : String
  input : Raw
  parent : Option ParentRef
  attrs : SMap String

structure Forked where
  execID : String
  source : String
  seq : Nat
  state : Encoding

structure Continued where
  state : Encoding
  segment : Segment

structure Completed where
  output : Raw

structure Failed where
  error : String
  reason : String
  node : String
  cancelChildren : List String

structure Cancelled where
  reason : String
  cancelChildren : List String

structure Entered where
  node : String

structure Scheduled where
  key : String
  node : String
  kind : String
  index : Nat
  generation : Nat
  attempt : Nat
  owner : String
  item : Raw
  resume : Raw
  resumedBy : String

structure NodeDone where
  key : String
  node : String
  generation : Nat
  attempt : Nat
  output : Raw
  writes : SMap Json
  next : String
  usage : SMap Rat
  cached : Bool
  cacheKey : String

structure NodeFail where
  key : String
  node : String
  generation : Nat
  attempt : Nat
  error : String
  reason : String
  willRetry : Bool
  usage : SMap Rat

structure Interrupted where
  key : String
  node : String
  generation : Nat
  payload : Raw
  usage : SMap Rat

structure NodeCancel where
  key : String
  node : String
  reason : String

structure Choice where
  node : String
  rule : Nat
  name : String
  toNode : String
  error : String

structure Fanout where
  node : String
  join : String
  branches : List String

structure Join where
  node : String
  fanout : String
  succeeded : List String
  failed : List String
  ok : Bool
  output : Raw
  cancelChildren : List String

structure Await where
  node : String
  signal : String
  timerID : String

structure AwaitTimeout where
  node : String
  toNode : String

structure Signal where
  name : String
  id : String
  payload : Raw

structure SignalUse where
  node : String
  name : String
  id : String

structure Map where
  node : String
  items : List Json
  maxParallel : Int

structure MapDone where
  node : String

structure Update where
  id : String
  writes : SMap Json

structure MapAbort where
  node : String
  index : Nat
  cancelChildren : List String

structure Child where
  node : String
  childID : String
  childN : Nat
  flow : String
  input : Raw
  policy : ParentClose
  key : String
  owner : String
  index : Nat

/-- `InstanceKey` -/
def Child.instanceKey (c : Child) : String := if c.key = "" then c.node else c.key

structure ChildDone where
  node : String
  key : String
  childID : String
  status : String
  output : Raw
  error : String
  counters : SMap Rat

def ChildDone.instanceKey (d : ChildDone) : String := if d.key = "" then d.node else d.key

structure Fired where
  id : String

end Event

inductive Payload
  | started (d : Event.Started)
  | forked (d : Event.Forked)
  | continued (d : Event.Continued)
  | completed (d : Event.Completed)
  | failed (d : Event.Failed)
  | cancelled (d : Event.Cancelled)
  | entered (d : Event.Entered)
  | scheduled (d : Event.Scheduled)
  | nodeDone (d : Event.NodeDone)
  | nodeFail (d : Event.NodeFail)
  | interrupted (d : Event.Interrupted)
  | nodeCancel (d : Event.NodeCancel)
  | choice (d : Event.Choice)
  | fanout (d : Event.Fanout)
  | join (d : Event.Join)
  | await (d : Event.Await)
  | awaitTimeout (d : Event.AwaitTimeout)
  | signal (d : Event.Signal)
  | signalUse (d : Event.SignalUse)
  | update (d : Event.Update)
  | map (d : Event.Map)
  | mapDone (d : Event.MapDone)
  | mapAbort (d : Event.MapAbort)
  | child (d : Event.Child)
  | childDone (d : Event.ChildDone)
  | timer (d : Timer)
  | fired (d : Event.Fired)

structure Event where
  time : Time
  index : Nat
  cmdID : String
  data : Payload
  trace : String := ""
  seq : Nat := 0
  decisionEnd : Bool := false

/-- `Type.Terminal`: completed, failed or cancelled. -/
def Payload.terminal : Payload → Bool
  | .completed _ | .failed _ | .cancelled _ => true
  | _ => false

/-! ## Commands -/

namespace Cmd

structure StartData where
  flow : String
  version : String := ""
  input : Raw := none
  parent : Option ParentRef := none

/-- The attempt a worker's result is for. The numbers are whatever the message says. -/
structure TaskRef where
  key : String
  generation : Int
  attempt : Int
  deriving DecidableEq, Repr

structure CompleteData extends TaskRef where
  output : Raw := none
  writes : SMap Json := ∅
  next : String := ""
  usage : SMap Rat := ∅
  cacheKey : String := ""
  cached : Bool := false

structure FailData extends TaskRef where
  error : String
  retryable : Bool
  reason : String := ""
  usage : SMap Rat := ∅

structure InterruptData extends TaskRef where
  payload : Raw := none
  usage : SMap Rat := ∅

structure ResumeData where
  node : String
  key : String := ""
  value : Raw := none
  resumer : String := ""

structure SignalData where
  name : String
  payload : Raw := none

structure CancelData where
  reason : String := ""

structure TimerData where
  timerID : String

structure ChildDoneData where
  childID : String
  status : String
  output : Raw := none
  error : String := ""
  counters : SMap Rat := ∅

end Cmd

/-- A command by its type and decoded payload. `undecodable` is a command of a type the fold decides
whose payload is not that type's JSON; `operational` one the fold does not decide (fork, archive,
delete, redispatch). -/
inductive CmdData
  | start (p : Cmd.StartData)
  | complete (p : Cmd.CompleteData)
  | fail (p : Cmd.FailData)
  | interrupt (p : Cmd.InterruptData)
  | resume (p : Cmd.ResumeData)
  | signal (p : Cmd.SignalData)
  | cancel (p : Cmd.CancelData)
  | timer (p : Cmd.TimerData)
  | childDone (p : Cmd.ChildDoneData)
  | update (writes : SMap Json)
  | undecodable (type error : String)
  | operational (type : String)

structure Command where
  id : String
  data : CmdData

end Packtrail
