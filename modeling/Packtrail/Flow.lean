import Packtrail.Names

/-
# Flow definitions

The declarative graph of `flow/flow.go:193-394`, field by field, and the methods the engine calls
on it. A definition is pure data; what `Validate` computes from it (the node index, the fan-out
owner of a branch, the join of a fan-out, the start node, the compiled expressions) is a function of
that data and is found in `Packtrail.Graph` and `Packtrail.Validate`.

Durations are nanoseconds. Left out: `description`, which no modelled
function reads.
-/

namespace Packtrail

inductive NodeType
  | task | choice | fanout | join | await | map | subflow
  | unknown (s : String)
  deriving DecidableEq, Repr

inductive Backoff
  | unset | fixed | linear | exponential
  | unknown (s : String)
  deriving DecidableEq, Repr

/-- `on_parent_close`. -/
inductive ParentClose
  | unset | cancel | abandon
  | unknown (s : String)
  deriving DecidableEq, Repr

/-- `on_error` of a choice. -/
inductive OnError
  | unset | fail
  | unknown (s : String)
  deriving DecidableEq, Repr

/-- `on_expire`. -/
inductive OnExpire
  | unset | archive | delete
  | unknown (s : String)
  deriving DecidableEq, Repr

structure Retry where
  maxAttempts : Int
  backoff : Backoff := .unset
  delay : Int := 0
  maxDelay : Int := 0
  deriving DecidableEq, Repr

structure Concurrency where
  key : String
  max : Int
  deriving DecidableEq, Repr

structure Rule where
  name : String := ""
  whenExpr : String := ""
  default : Bool := false
  toNode : String
  deriving DecidableEq, Repr

/-- A nil `any` (no schema) is `Json.null`; `metaData` is the node's `meta` by its JSON encoding, or by
the error of encoding it. -/
structure Node where
  id : String
  type : NodeType
  next : String := ""
  onFailure : String := ""
  metaData : Option (Except String Json) := none
  kind : String := ""
  timeout : Int := 0
  retry : Option Retry := none
  outputSchema : Json := .null
  cacheTTL : Option Int := none
  concurrency : Option Concurrency := none
  dynamic : List String := []
  rules : List Rule := []
  onError : OnError := .unset
  branches : List String := []
  waitFor : List String := []
  policy : String := ""
  signal : String := ""
  onTimeout : String := ""
  overExpr : String := ""
  maxParallel : Int := 0
  flow : String := ""
  input : String := ""
  onParentClose : ParentClose := .unset

/-- `default` is `Json.null` when the channel declares none. -/
structure Channel where
  reducer : Reducer := .unset
  default : Json := .null

structure Trigger where
  subject : String
  stream : String := ""
  deriving DecidableEq, Repr

structure Flow where
  version : String := ""
  name : String
  start : String := ""
  channels : SMap Channel := ∅
  output : String := ""
  nodes : List Node
  budget : SMap Rat := ∅
  maxSteps : Int := 0
  searchAttributes : SMap String := ∅
  retention : Int := 0
  onExpire : OnExpire := .unset
  archiveRetention : Int := 0
  triggers : List Trigger := []

/-- The reserved choice target that completes the execution. -/
def endTarget : String := "$end"

def maxRetryAttempts : Int := 64
def defaultMaxSteps : Nat := 1000
def defaultRetryDelay : Int := 1000000000
def defaultMapParallel : Int := 100
def maxParallelLimit : Int := 256
def maxBranches : Nat := 256
def defaultRetryMaxDelay : Int := 300000000000

def Channel.reducerOrDefault (c : Channel) : Reducer :=
  if c.reducer = .unset then .replace else c.reducer

/-- `f.Node(id)`: `indexNodes` keeps the first node with an id. -/
def Flow.node (f : Flow) (id : String) : Option Node := f.nodes.find? fun n => n.id == id

def Flow.maxStepsOrDefault (f : Flow) : Nat :=
  if f.maxSteps ≤ 0 then defaultMaxSteps else f.maxSteps.toNat

/-- The channel's reducer; an undeclared channel is Go's zero `Channel`. -/
def Flow.reducerOf (f : Flow) (name : String) : Reducer :=
  match f.channels[name]? with
  | some c => c.reducerOrDefault
  | none => .replace

/-- `OutputProgram() != nil` after validation. -/
def Flow.hasOutput (f : Flow) : Bool := trimSpace f.output ≠ ""

namespace Node

/-- `InputProgram() != nil` after validation. -/
def hasInput (n : Node) : Bool := trimSpace n.input ≠ ""

def allowsDynamic (n : Node) (target : String) : Bool := n.dynamic.contains target

def parentClose (n : Node) : ParentClose :=
  if n.onParentClose = .unset then .cancel else n.onParentClose

def maxAttempts (n : Node) : Int :=
  match n.retry with
  | none => 1
  | some r => if r.maxAttempts < 1 then 1 else r.maxAttempts

end Node

/-! ## Join policies (`flow/flow.go:424-450`) -/

inductive JoinKind
  | all | any
  | quorum (n : Int)
  | min (n : Int)
  | unknown (s : String)
  deriving DecidableEq, Repr

/-- `-1` when the count is not a number. -/
def joinCount (s : String) : Int := (atoi s).getD (-1)

/-- A policy that is none of the others is returned as its own kind with count 0, so a bare `quorum` or `min` is
that kind. -/
def Node.joinKind (n : Node) : JoinKind :=
  let p := trimSpace n.policy
  if p = "" ∨ p = "all" then .all
  else if p = "any" then .any
  else match dropPrefix? "quorum:" p with
    | some s => .quorum (joinCount s)
    | none => match dropPrefix? "min:" p with
      | some s => .min (joinCount s)
      | none => if p = "quorum" then .quorum 0 else if p = "min" then .min 0 else .unknown p

/-! ## Retry backoff (`flow/flow.go:461-511`) -/

/-- Two's-complement wrap of a 64-bit signed product or shift. -/
def wrap64 (x : Int) : Int := x.bmod (2 ^ 64)

def maxBackoffShift : Nat := 62

/-- Base delay and cap after their defaults; the cap is never below the base. -/
def Retry.base (r : Retry) : Int := if r.delay ≤ 0 then defaultRetryDelay else r.delay

def Retry.cap (r : Retry) : Int :=
  max r.base (if r.maxDelay ≤ 0 then defaultRetryMaxDelay else r.maxDelay)

/-- The last check of `Backoff`: a non-positive or too long delay becomes the cap. -/
def Retry.clamp (r : Retry) (d : Int) : Int := if d ≤ 0 ∨ r.cap < d then r.cap else d

/-- The delay before attempt `attempt` (2, 3, …). -/
def Node.backoff (n : Node) (attempt : Nat) : Int :=
  match n.retry with
  | none => 0
  | some r =>
    let retry := max (attempt - 1) 1
    match r.backoff with
    | .linear =>
      let d := wrap64 (r.base * retry)
      r.clamp (if d.tdiv retry ≠ r.base then r.cap else d)
    | .exponential =>
      if maxBackoffShift ≤ retry - 1 then r.cap
      else r.clamp (wrap64 (r.base * 2 ^ (retry - 1)))
    | _ => r.clamp r.base

theorem Retry.base_pos (r : Retry) : 0 < r.base := by
  unfold Retry.base defaultRetryDelay
  split <;> omega

theorem Node.one_le_maxAttempts (n : Node) : 1 ≤ n.maxAttempts := by
  unfold Node.maxAttempts
  split
  · omega
  · split <;> omega

end Packtrail
