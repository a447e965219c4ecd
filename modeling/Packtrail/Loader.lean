import Packtrail.Apply
import Packtrail.Lib.Replay
import Packtrail.Lib.Search

/-
# The event log and the loader

`internal/eventlog` stores a decision as one message under a stream sequence; `internal/loader` rebuilds
a state from a snapshot and the log after it, from the live log alone, or from the whole history: a
continuation archives the events before it as an object (a segment), lists it in the state it carries
and lets the messages before it be purged. A purge may stop early, so a live log can begin with messages
that are in a segment already.

Reads of the stream and of the object store are taken to succeed. The flow an execution is bound to is
fixed by its hash, so looking it up always yields `fl`; that the log begins with an event that names a
flow is checked as in the source.
-/

namespace Packtrail

open Replay

/-- A stored decision: its events share the sequence of their message. -/
structure Message where
  seq : Nat
  events : List Event

/-- The last event of a decision is marked when it is read. -/
def markEnd : List Event → List Event
  | [] => []
  | [ev] => [{ ev with decisionEnd := true }]
  | ev :: evs => ev :: markEnd evs

/-- `Log.decode` (`eventlog.go:273-291`) -/
def Message.decode (m : Message) : List Event := markEnd (m.events.map fun ev => { ev with seq := m.seq })

/-- Sequence `seq` is read when reading up to `upTo`; 0 stands for the end. -/
def within (upTo seq : Nat) : Bool := upTo = 0 || seq ≤ upTo

/-- `Log.Read` (`eventlog.go:137-151`): in order from sequence `start`, up to the first event beyond `upTo`. -/
def readLog (live : List Message) (start upTo : Nat) : List Event :=
  ((live.filter fun m => start ≤ m.seq).flatMap Message.decode).takeWhile fun ev => within upTo ev.seq

/-- `Log.FirstSeq`, 0 if there is none. -/
def firstSeq (live : List Message) : Nat := (live.head?.map Message.seq).getD 0

/-- What is kept of an execution: its live log, the archive objects and its snapshot. -/
structure Store where
  live : List Message := []
  objects : SMap (List Event) := ∅
  snapshot : Option Encoding := none

inductive LoadErr
  | notArchived
  | segment (object : String)
  | startsWith (type : String)
  | withoutPayload
  | apply (e : Err)
  deriving DecidableEq, Repr

/-- The name of the event type. -/
def Payload.type : Payload → String
  | .started _ => "ExecutionStarted"
  | .forked _ => "ExecutionForked"
  | .continued _ => "ExecutionContinued"
  | .completed _ => "ExecutionCompleted"
  | .failed _ => "ExecutionFailed"
  | .cancelled _ => "ExecutionCancelled"
  | .entered _ => "NodeEntered"
  | .scheduled _ => "NodeScheduled"
  | .nodeDone _ => "NodeCompleted"
  | .nodeFail _ => "NodeFailed"
  | .interrupted _ => "NodeInterrupted"
  | .nodeCancel _ => "NodeCancelled"
  | .choice _ => "ChoiceEvaluated"
  | .fanout _ => "FanoutStarted"
  | .join _ => "JoinCompleted"
  | .await _ => "AwaitStarted"
  | .awaitTimeout _ => "AwaitTimedOut"
  | .signal _ => "SignalReceived"
  | .signalUse _ => "SignalConsumed"
  | .update _ => "ChannelsUpdated"
  | .map _ => "MapStarted"
  | .mapDone _ => "MapCompleted"
  | .mapAbort _ => "MapAborted"
  | .child _ => "ChildStarted"
  | .childDone _ => "ChildCompleted"
  | .timer _ => "TimerScheduled"
  | .fired _ => "TimerFired"

/-- The events a state can be folded from without what precedes them. -/
def Payload.isBase : Payload → Bool
  | .started _ | .forked _ | .continued _ => true
  | _ => false

def Payload.isContinued : Payload → Bool
  | .continued _ => true
  | _ => false

/-- An event that neither replaces the state nor depends on its own index. -/
def Payload.ordinary : Payload → Bool
  | .forked _ | .continued _ => false
  | _ => true

/-- The position of the last element that meets `p`: the loops of `lastBase` and `withSegments`. -/
def lastWhere {α : Type} (p : α → Bool) : List α → Option Nat
  | [] => none
  | a :: l =>
    match lastWhere p l with
    | some i => some (i + 1)
    | none => if p a then some 0 else none

/-- `lastBase` (`loader.go:136-145`) -/
def lastBase : List Event → Option Nat := lastWhere fun ev => ev.data.isBase

/-- `DefOf` (`loader.go:179-192`): the flow of a log, by its first event. -/
def defOf (first : Event) : Except LoadErr Unit :=
  if first.data.isBase then .ok () else .error (.startsWith first.data.type)

section
variable (x : Ext) (fl : Flow)

/-- Apply an event and note the sequence it was read under. -/
def applySeq (s : State) (ev : Event) : Except Err State :=
  (s.apply x.quote fl ev).map fun s' => { s' with lastSeq := ev.seq }

def foldSeq (s : State) (evs : List Event) : Except LoadErr State := (replay (applySeq x fl) s evs).mapError .apply

/-- `foldUpTo` (`loader.go:362-388`) -/
def foldUpTo (execID : String) (evs : List Event) (upTo : Nat) : Except LoadErr State :=
  match evs with
  | [] => .ok (State.new execID)
  | first :: _ =>
    match defOf first with
    | .error e => .error e
    | .ok _ => foldSeq x fl (State.new execID) (evs.takeWhile fun ev => within upTo ev.seq)

/-- The events of the segments, oldest first. -/
def readSegments (objects : SMap (List Event)) : List Segment → Except LoadErr (List Event)
  | [] => .ok []
  | seg :: segs =>
    match objects[seg.object]? with
    | none => .error (.segment seg.object)
    | some part => (readSegments objects segs).map (part ++ ·)

/-- `withSegments` (`loader.go:321-359`): events before the last continuation are in a segment already. -/
def withSegments (objects : SMap (List Event)) (evs : List Event) : Except LoadErr (List Event) :=
  match lastWhere (fun ev => ev.data.isContinued) evs with
  | none => .ok evs
  | some i =>
    match evs.drop i with
    | [] => .error .withoutPayload
    | ev :: rest =>
      match ev.data with
      | .continued d => (readSegments objects (unmarshal d.state).segments).map (· ++ ev :: rest)
      | _ => .error .withoutPayload

namespace Store

variable (σ : Store) (execID : String)

/-- `snapshotFor` (`loader.go:165-176`) -/
def snapshotFor (upTo : Nat) : Option State :=
  match σ.snapshot with
  | none => none
  | some b =>
    let st := unmarshal b
    if 0 < upTo ∧ upTo < st.lastSeq then none else some st

/-- `continues` (`loader.go:123-132`): whether `evs`, read right after `st`, continue it. -/
def continues (st : State) (evs : List Event) : Bool :=
  match evs with
  | ev :: _ => if ev.index ≠ 0 then ev.index = st.events + 1 else firstSeq σ.live ≠ 0 ∧ firstSeq σ.live ≤ st.lastSeq
  | [] => firstSeq σ.live ≠ 0 ∧ firstSeq σ.live ≤ st.lastSeq

/-- `loadFromHistory` (`loader.go:149-161`) -/
def loadFromHistory (upTo : Nat) : Except LoadErr State :=
  let live := readLog σ.live 1 0
  if live.isEmpty then .ok (State.new execID)
  else match withSegments σ.objects live with
    | .error e => .error e
    | .ok evs => foldUpTo x fl execID evs upTo

/-- The part of `Load` (`loader.go:75-117`) after the events of `st` were read. -/
def loadFrom (upTo : Nat) (st : Option State) (evs : List Event) : Except LoadErr State :=
  if st.isNone && evs.isEmpty then
    if 0 < upTo then σ.loadFromHistory x fl execID upTo else .ok (State.new execID)
  else
    match lastBase evs, st with
    -- fold from the last event that bases a state
    | some i, _ =>
      match evs.drop i with
      | [] => .ok (State.new execID)
      | first :: rest =>
        match defOf first with
        | .error e => .error e
        | .ok _ => foldSeq x fl (State.new execID) (first :: rest)
    | none, some s => foldSeq x fl s evs
    | none, none => σ.loadFromHistory x fl execID upTo

/-- `Load` (`loader.go:53-117`): the state folded up to `upTo`. -/
def load (upTo : Nat) : Except LoadErr State :=
  match σ.snapshotFor upTo with
  | none => σ.loadFrom x fl execID upTo none (readLog σ.live 1 upTo)
  | some st =>
    let evs := readLog σ.live (st.lastSeq + 1) upTo
    if σ.continues st evs then σ.loadFrom x fl execID upTo (some st) evs
    -- the log moved past the snapshot
    else σ.loadFrom x fl execID upTo none (readLog σ.live 1 upTo)

/-- `Archived` -/
def archived : Except LoadErr (List Event) :=
  match σ.objects[execID]? with
  | none => .error .notArchived
  | some evs => .ok evs

/-- `LoadArchived` (`loader.go:283-301`) -/
def loadArchived (upTo : Nat) : Except LoadErr State :=
  match σ.archived execID with
  | .error e => .error e
  | .ok [] => .error .notArchived
  | .ok (first :: rest) =>
    if 0 < upTo ∧ upTo < first.seq then
      match withSegments σ.objects (first :: rest) with
      | .error e => .error e
      | .ok evs => foldUpTo x fl execID evs upTo
    else foldUpTo x fl execID (first :: rest) upTo

/-- `History` (`loader.go:306-319`) -/
def history : Except LoadErr (List Event) :=
  let evs := readLog σ.live 1 0
  if evs.isEmpty then
    match σ.archived execID with
    | .error e => .error e
    | .ok evs => withSegments σ.objects evs
  else withSegments σ.objects evs

end Store

/-- `SegmentObject` -/
def segmentObject (execID : String) (first : Nat) : String := execID ++ ".seg." ++ toString first

end

end Packtrail
