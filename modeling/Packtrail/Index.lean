import Packtrail.History

/-
# The index

`internal/projection` keeps a summary of every execution in a key-value bucket, with keys that say which executions
have a status, a flow or a search attribute, and the quarantine mark of the dispatcher.

| here | there |
| --- | --- |
| `IndexKey`         | the keys of one execution: `x.`, `s.<status>.`, `f.<flow>.`, `a.<attr>.<hash>.` and `q.` before its id |
| `indexFrom`        | `IndexFrom` (`projection.go:106-173`) |
| `setTerminal`      | `SetTerminal`, `moveStatus` (`projection.go:175-193`, `:298-316`) |
| `quarantine`, `unquarantine` | `Quarantine`, `Unquarantine` (`projection.go:205-222`, `:282-294`) |

Each of them reads the summary once and then writes one key after the other; it is modelled by the list of its writes,
so that one that fails or is interrupted has made the first few of them (`Index.writes`).
-/

namespace Packtrail

inductive IndexKey
  | summary
  | status (s : Status)
  | flow (name : String)
  | attr (name hash : String)
  | quarantine
  deriving DecidableEq

structure Summary where
  flow : String
  flowHash : String
  status : Status
  created : Time
  updated : Time
  attrs : SMap String
  parent : Option ParentRef
  forkedFrom : String
  error : String
  reason : String
  lastSeq : Nat
  archived : Bool := false
  quarantined : Bool := false
  quarantineReason : String := ""

structure QuarantineMark where
  seq : Nat
  reason : String

/-- What the bucket holds of one execution. The keys of statuses, flows and attributes have no value. -/
structure Index where
  summary : Option Summary := none
  mark : Option QuarantineMark := none
  member : IndexKey → Bool := fun _ => false

inductive IndexWrite
  | summary (s : Summary)
  | quarantine (m : QuarantineMark)
  | put (k : IndexKey)
  /-- `Delete`, `Purge` or `EraseKey`: a key that is not there stays away. -/
  | erase (k : IndexKey)

namespace Index

def write (ix : Index) : IndexWrite → Index
  | .summary s => { ix with summary := some s }
  | .quarantine m => { ix with mark := some m }
  | .put k => { ix with member := fun j => j = k || ix.member j }
  | .erase k =>
    { summary := if k = .summary then none else ix.summary
      mark := if k = .quarantine then none else ix.mark
      member := fun j => j ≠ k && ix.member j }

def writes (ix : Index) (l : List IndexWrite) : Index := l.foldl write ix

end Index

/-- `SummaryOf` -/
def summaryOf (st : State) : Summary :=
  { flow := st.flow, flowHash := st.flowHash, status := st.status, created := st.created, updated := st.updated
    attrs := st.attrs, parent := st.parent, forkedFrom := st.forkedFrom, error := st.error, reason := st.reason
    lastSeq := st.lastSeq }

/-- `statuses` -/
def statuses : List Status := [.running, .waiting, .completed, .failed, .cancelled]

section
variable (attrHash : String → String)

def attrKeys (attrs : SMap String) : List IndexKey :=
  (attrs.toList.filter fun kv => validToken kv.1).map fun kv => .attr kv.1 (attrHash kv.2)

/-- The keys of the flow and the attributes. -/
def flowKeys (flow : String) (attrs : SMap String) : List IndexKey := .flow flow :: attrKeys attrHash attrs

/-- The status key of a new execution is put, and a status that changed moves. -/
def statusWrites (created : Bool) (prev status : Status) : List IndexWrite :=
  if !created && prev = status then []
  else .put (.status status) :: if created then [] else [.erase (.status prev)]

def indexFrom (st : State) (created : Bool) (prev : Status) : List IndexWrite :=
  .summary (summaryOf st) ::
    ((if created then (flowKeys attrHash st.flow st.attrs).map .put else []) ++ statusWrites created prev st.status)

/-- `updateSummary` -/
def updateSummary (ix : Index) (f : Summary → Summary) : List IndexWrite :=
  match ix.summary with
  | none => []
  | some s => [.summary (f s)]

def moveStatus (status : Status) : List IndexWrite :=
  statuses.map fun s => if s = status then .put (.status s) else .erase (.status s)

def setTerminal (ix : Index) (status : Status) (reason error : String) (at_ : Time) : List IndexWrite :=
  updateSummary ix (fun s => { s with status, reason, error, updated := at_ }) ++ moveStatus status

def quarantine (ix : Index) (seq : Nat) (reason : String) : List IndexWrite :=
  .quarantine ⟨seq, reason⟩ :: updateSummary ix fun s => { s with quarantined := true, quarantineReason := reason }

def unquarantine : List IndexWrite := [.erase .quarantine]

end

/-! ## Writing -/

/-- A summary is written over one that is there. -/
theorem mem_updateSummary {ix : Index} {f : Summary → Summary} {w : IndexWrite} (h : w ∈ updateSummary ix f) :
    ∃ s, ix.summary = some s ∧ w = .summary (f s) := by
  unfold updateSummary at h
  split at h
  · cases h
  · rename_i s hs
    exact ⟨s, hs, List.mem_singleton.1 h⟩

namespace Index

variable {ix : Index} {l l' : List IndexWrite}

@[simp] theorem writes_nil : ix.writes [] = ix := rfl

@[simp] theorem writes_cons (w : IndexWrite) : ix.writes (w :: l) = (ix.write w).writes l := rfl

theorem writes_append : ix.writes (l ++ l') = (ix.writes l).writes l' := List.foldl_append

/-- What every write of a list keeps. -/
theorem writes_invariant {P : Index → Prop} (h : P ix) (hstep : ∀ w ∈ l, ∀ ix, P ix → P (ix.write w)) : P (ix.writes l) := by
  induction l generalizing ix with
  | nil => exact h
  | cons w l ih => exact ih (hstep w List.mem_cons_self ix h) fun w' hw' => hstep w' (List.mem_cons_of_mem _ hw')

end Index

end Packtrail
