import Packtrail.Lib.Transition
import Packtrail.History
import Packtrail.Archive

/-
# The engines of an execution

`internal/engine/engine.go`: any number of engines serve the commands of one execution. Each keeps a
state of its own in a cache (`internal/statecache`), decides on it and appends what it decided, expecting
the log to end where its state ends; NATS refuses an append whose expectation is wrong. After a stored
decision an engine may save a snapshot and continue the execution as new: it reads the live log, writes
the segment object, appends the continuation and purges what came before. Archive and delete run beside
all that, by hand or by a command.

`World.step` is one step of one of them. An engine can be held up or crash between any two steps: whatever
it was about to do is in its `Stage`, and other engines move on meanwhile. What a load reads is part of
the action, and how far behind the log it may be is up to the theorem (`World.Fresh`, `World.Lagging`).

The cached entry of a decision that is about to be appended is left out of the cache: the decider changes
it in place, and it is put back or dropped once the append has returned.
-/

namespace Packtrail

/-- `cmd.Type` of a command. -/
def CmdData.type : CmdData → String
  | .start _ => "start"
  | .complete _ => "complete"
  | .fail _ => "fail"
  | .interrupt _ => "interrupt"
  | .resume _ => "resume"
  | .signal _ => "signal"
  | .cancel _ => "cancel"
  | .timer _ => "timer"
  | .childDone _ => "child_done"
  | .update _ => "update"
  | .undecodable type _ => type
  | .operational type => type

def Ask.id : Ask → String
  | .command cmd => cmd.id
  | .fork _ _ _ cmdID _ => cmdID

def Ask.type : Ask → String
  | .command cmd => cmd.data.type
  | .fork .. => "fork"

/-- What an engine is in the middle of. -/
inductive Stage
  | idle
  /-- A decision was too large; its events and the sequence it was taken at. -/
  | tooLarge (expected : Nat) (a : Ask) (decided : Time) (trace : String) (evs : List Event)
  | append (expected : Nat) (evs : List Event) (next : State)
  /-- A decision is stored; `afterAppend` comes next. -/
  | after (st : State)
  /-- `continueAsNew` has read its segment. -/
  | segment (st : State) (seg : List Event)
  | continuing (st : State) (segment : Segment)
  /-- The continuation is stored under `seq`. -/
  | purge (seq : Nat) (st : State)

structure Engine where
  cache : Option State := none
  stage : Stage := .idle

/-- What an archive or a delete is in the middle of. -/
inductive Op
  | idle
  | archiving
  /-- The object is written. -/
  | purging
  | cleaning
  | deleting (objects : List String)
  | erasing (objects : List String)
  | dropping

structure World where
  /-- Every message appended since the id was last free; nobody reads it. -/
  hist : List Message := []
  store : Store := {}
  /-- The last sequence the stream has given out. -/
  top : Nat := 0
  engines : Nat → Engine := fun _ => {}
  ops : Nat → Op := fun _ => .idle

/-- What the engines of one execution share. -/
structure Setup where
  x : Ext
  fl : Flow
  execID : String
  maxEvents : Nat
  /-- `infra.DedupWindow` -/
  dedupWindow : Time

namespace World

variable (w : World)

def setEngine (i : Nat) (e : Engine) : World := { w with engines := fun j => if j = i then e else w.engines j }

def setOp (i : Nat) (o : Op) : World := { w with ops := fun j => if j = i then o else w.ops j }

/-- The last sequence of the execution's subject, 0 if there is none. -/
def lastSeq : Nat := (w.store.live.getLast?.map Message.seq).getD 0

/-- A message is stored. -/
def publish (m : Message) : World :=
  { w with hist := w.hist ++ [m], store := { w.store with live := w.store.live ++ [m] }, top := m.seq }

/-- `Log.Purge`: the id is free again. -/
def clear : World := { w with hist := [], store := { w.store with live := [] } }

/-- `Log.PurgeBefore` -/
def purgeBefore (seq : Nat) : World :=
  { w with store := { w.store with live := w.store.live.filter fun m => seq ≤ m.seq } }

def save (st : State) : World := { w with store := { w.store with snapshot := some st.marshal } }

def putArchive (name : String) (evs : List Event) : World :=
  { w with store := { w.store with objects := w.store.objects.insert name evs } }

end World

section
variable (c : Setup)

/-- `Engine.load` (`engine.go:486-497`) -/
def Engine.load (e : Engine) (σ : Store) : Except LoadErr State :=
  match e.cache with
  | some st => .ok st
  | none => σ.load c.x c.fl c.execID 0

/-- `Engine.decide` (`engine.go:459-484`) with `decideStart` and `decideFork` (`engine.go:499-566`): a start of
an archived id joins it. -/
def Setup.decide (σ : Store) (s : State) (a : Ask) (now : Time) : Except LoadErr Outcome :=
  match a with
  | .command ⟨_, .start p⟩ =>
    if !s.exists && σ.objects.contains c.execID then
      match σ.loadArchived c.x c.fl c.execID 0 with
      | .error e => .error e
      | .ok old => .ok ⟨(checkJoin old p.flow).map fun _ => [], s⟩
    else .ok (a.decide c.x c.fl s now)
  | _ => .ok (a.decide c.x c.fl s now)

/-- `apply` up to the append (`engine.go:340-357`, `fitDecision`). -/
def Engine.apply (e : Engine) (σ : Store) (a : Ask) (now : Time) (trace : String) : Engine :=
  match e.load c σ with
  | .error _ => {}
  | .ok s =>
    match c.decide σ s a now with
    | .error _ => {}
    | .ok o =>
      match o.result with
      | .error _ => {}
      -- acknowledged: nothing to do
      | .ok [] => e
      | .ok (ev :: evs) =>
        if c.maxEvents < (ev :: evs).length then { stage := .tooLarge s.lastSeq a now trace (ev :: evs) }
        else { stage := .append s.lastSeq ((ev :: evs).map (Event.traced trace)) o.state }

/-- `abortTooLarge` (`engine.go:420-455`): the cache is dropped and the state loaded again, but the append
still expects the sequence of the first load. -/
def Setup.abortTooLarge (σ : Store) (expected : Nat) (a : Ask) (trace : String) (evs : List Event) (now : Time) : Engine :=
  match σ.load c.x c.fl c.execID 0 with
  | .error _ => {}
  | .ok s =>
    let msg := "command " ++ a.id ++ " (" ++ a.type ++ ") produced " ++ toString evs.length ++ " events, more than the " ++
      toString c.maxEvents ++ " a decision may append"
    let o := abort c.x c.fl s (if s.exists then none else evs.head?) a.id "decision_too_large" msg now
    match o.result with
    | .error _ => {}
    | .ok out => { stage := .append expected (out.map (Event.traced trace)) o.state }

/-- The decision of `continueAsNew` (`engine.go:624-640`), on a copy of the state. -/
def Setup.continued (st : State) (segment : Segment) (now : Time) : Outcome :=
  continueAsNew c.x c.fl (unmarshal st.marshal) segment ("continue." ++ c.execID ++ "." ++ toString (st.events + 1)) now

/-- What `Delete` finds (`engine.go:829-857`): the objects to erase, or nothing to do. -/
def Setup.deletable (σ : Store) (now : Time) : Option (List String) :=
  let old (st : State) := if now < st.updated + c.dedupWindow then none else some (st.segments.map Segment.object)
  match σ.load c.x c.fl c.execID 0 with
  | .error _ => none
  | .ok st =>
    if st.exists then if st.status.terminal then old st else none
    else match σ.loadArchived c.x c.fl c.execID 0 with
      -- only leftovers of an interrupted delete can remain
      | .error .notArchived => some []
      | .error _ => none
      | .ok st => old st

end

inductive Action
  /-- Engine `i` takes up a command; a load reads `σ`. -/
  | decide (i : Nat) (σ : Store) (a : Ask) (now : Time) (trace : String)
  | reload (i : Nat) (σ : Store) (now : Time)
  /-- The append is stored under `seq`; its acknowledgement may be lost. -/
  | append (i seq : Nat) (acked : Bool)
  /-- The append is not stored. -/
  | refuse (i : Nat)
  | save (i : Nat)
  | read (i : Nat) (σ : Store)
  | put (i : Nat)
  | continueAsNew (i : Nat) (now : Time) (seq : Nat) (acked : Bool)
  /-- The dispatcher has processed everything up to `floor`. -/
  | purge (i floor : Nat)
  /-- The housekeeping after a decision is over or has failed. -/
  | rest (i : Nat)
  | crash (i : Nat)
  | archive (i : Nat) (σ : Store)
  | delete (i : Nat) (σ : Store) (now : Time)
  /-- An archive or a delete goes on, or fails. -/
  | proceed (i : Nat) (σ : Store)
  | abandon (i : Nat)

namespace World

variable (c : Setup) (w : World)

/-- The engine stops what it was doing and keeps its cache. -/
def settle (i : Nat) : World := w.setEngine i { w.engines i with stage := .idle }

/-- The rest of `apply` (`engine.go:361-396`). Without events nothing is sent, and no snapshot is due. -/
def append (i seq : Nat) (acked : Bool) : Option World :=
  match (w.engines i).stage with
  | .append expected evs next =>
    if evs.isEmpty then some (w.setEngine i { cache := some { next with lastSeq := expected } })
    else if expected = w.lastSeq ∧ w.top < seq then
      let st := { next with lastSeq := seq }
      some ((w.publish ⟨seq, evs⟩).setEngine i (if acked then { cache := some st, stage := .after st } else {}))
    else none
  | _ => none

/-- A decision that was not stored is dropped with its state (`engine.go:362-373`), and so is the cached
state after a continuation that came too late (`engine.go:643-647`). -/
def refuse (i : Nat) : Option World :=
  match (w.engines i).stage with
  | .append .. | .continuing .. => some (w.setEngine i {})
  | _ => none

/-- `Snaps.Save`, after a decision or a continuation. -/
def saveSnapshot (i : Nat) : Option World :=
  match (w.engines i).stage with
  | .after st | .purge _ st => some (w.save st)
  | _ => none

/-- `continueAsNew` up to the segment (`engine.go:591-612`). -/
def readSegment (i : Nat) (σ : Store) : Option World :=
  match (w.engines i).stage with
  | .after st =>
    let seg := (readLog σ.live 1 st.lastSeq).filter fun ev => st.base ≤ ev.index
    if st.status.terminal || seg.isEmpty then some (w.settle i)
    else some (w.setEngine i { w.engines i with stage := .segment st seg })
  | _ => none

def putSegment (i : Nat) : Option World :=
  match (w.engines i).stage with
  | .segment st seg =>
    (segmentOf c.execID seg).map fun segment =>
      (w.putArchive segment.object seg).setEngine i { w.engines i with stage := .continuing st segment }
  | _ => none

/-- `continueAsNew` up to the purge (`engine.go:624-659`). -/
def continueAsNew (i : Nat) (now : Time) (seq : Nat) (acked : Bool) : Option World :=
  match (w.engines i).stage with
  | .continuing st segment =>
    let o := c.continued st segment now
    match o.result with
    | .error _ | .ok [] => some (w.settle i)
    | .ok (ev :: evs) =>
      if st.lastSeq = w.lastSeq ∧ w.top < seq then
        let next := { o.state with lastSeq := seq }
        some ((w.publish ⟨seq, (ev :: evs).map (Event.traced "")⟩).setEngine i
          -- a lost acknowledgement leaves the cache as it was
          (if acked then { cache := some next, stage := .purge seq next } else { w.engines i with stage := .idle }))
      else none
  | _ => none

/-- The purge of `continueAsNew` (`engine.go:661-669`). -/
def purge (i floor : Nat) : Option World :=
  match (w.engines i).stage with
  | .purge seq _ => some (if floor = 0 then w.settle i else (w.purgeBefore (min seq (floor + 1))).settle i)
  | _ => none

def rest (i : Nat) : Option World :=
  match (w.engines i).stage with
  | .after _ | .segment .. | .continuing .. | .purge .. => some (w.settle i)
  | _ => none

/-- The steps of `Archive` (`engine.go:729-768`) and `Delete` (`engine.go:829-904`) once they have found the
execution finished. -/
def proceed (i : Nat) (σ : Store) : Option World :=
  match w.ops i with
  | .idle => none
  | .archiving => some ((w.putArchive c.execID (readLog σ.live 1 0)).setOp i .purging)
  | .purging => some ((w.clear.setEngine i { w.engines i with cache := none }).setOp i .cleaning)
  | .cleaning => some ({ w with store := { w.store with snapshot := none } }.setOp i .idle)
  | .deleting objects => some ({ w with store := { w.store with snapshot := none } }.setOp i (.erasing (objects ++ [c.execID])))
  | .erasing [] => some (w.setOp i .dropping)
  | .erasing (o :: os) => some ({ w with store := { w.store with objects := w.store.objects.erase o } }.setOp i (.erasing os))
  | .dropping => some (w.clear.setOp i .idle)

/-- One step of one of the engines, or of an archive or a delete. -/
def step : Action → Option World
  | .decide i σ a now trace =>
    match (w.engines i).stage with
    | .idle => some (w.setEngine i ((w.engines i).apply c σ a now trace))
    | _ => none
  | .reload i σ now =>
    match (w.engines i).stage with
    | .tooLarge expected a _ trace evs => some (w.setEngine i (c.abortTooLarge σ expected a trace evs now))
    | _ => none
  | .append i seq acked => w.append i seq acked
  | .refuse i => w.refuse i
  | .save i => w.saveSnapshot i
  | .read i σ => w.readSegment i σ
  | .put i => w.putSegment c i
  | .continueAsNew i now seq acked => w.continueAsNew c i now seq acked
  | .purge i floor => w.purge i floor
  | .rest i => w.rest i
  | .crash i => some (w.setEngine i {})
  | .archive i σ =>
    match w.ops i, σ.load c.x c.fl c.execID 0 with
    | .idle, .ok st => if st.exists && st.status.terminal then some (w.setOp i .archiving) else some w
    | .idle, .error _ => some w
    | _, _ => none
  | .delete i σ now =>
    match w.ops i, c.deletable σ now with
    | .idle, some objects => some ((w.setEngine i { w.engines i with cache := none }).setOp i (.deleting objects))
    | .idle, none => some w
    | _, _ => none
  | .proceed i σ => w.proceed c i σ
  | .abandon i => some (w.setOp i .idle)

end World

/-- What the action reads. -/
def Action.view : Action → Option Store
  | .decide _ σ _ _ _ | .reload _ σ _ | .read _ σ | .archive _ σ | .delete _ σ _ | .proceed _ σ => some σ
  | _ => none

def Action.ask : Action → Option Ask
  | .decide _ _ a _ _ => some a
  | _ => none

/-- Reads see the store as it is. -/
def World.Fresh (w : World) (σ : Store) : Prop := σ = w.store

/-- A step in which reads show what `reads` allows, and the source of a fork is an execution that exists. -/
structure Step (c : Setup) (reads : World → Store → Prop) (w : World) (act : Action) (w' : World) : Prop where
  view : ∀ σ, act.view = some σ → reads w σ
  sourced : ∀ a, act.ask = some a → (Request.ask a).Sourced c.x c.fl
  next : w.step c act = some w'

end Packtrail
