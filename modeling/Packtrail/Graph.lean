import Packtrail.State

/-
# The graph of a flow: fan-outs, routes, start and reachability

| here | there |
| --- | --- |
| `FanIndex`, `fanStep`, `Flow.fanIndex` | `branchOf` and `joinOf`, as `validateFans` fills them (`flow/graph.go:55-85`) |
| `fanProblems`, `joinProblems`, `fansProblems` | what `validateFans`, `validateFanBranches`, `validateJoinFan` report (`:55-158`) |
| `Flow.waitFor`                 | `WaitFor` (`:24-41`) |
| `routes`, `successors`         | `:160-209` |
| `branchEntryProblems`          | `rejectBranchEntry` (`:216-233`) |
| `Flow.startNode`, `startProblems` | `resolveStart` (`:240-295`) |
| `reach`, `unreachableProblems` | `rejectUnreachable` (`:300-322`) |

The source fills the index and reports problems in one pass; here the index is a fold of its own
(`fanStep`) and the problems found at a node are a function of the index built before it.
-/

namespace Packtrail

/-- A `ValidationError` without the name of its flow: the node at fault (empty for the flow), the path
of the field, the message. -/
structure Problem where
  node : String
  field : String
  msg : String
  deriving DecidableEq, Repr

def NodeType.name : NodeType → String
  | .task => "task"
  | .choice => "choice"
  | .fanout => "fanout"
  | .join => "join"
  | .await => "await"
  | .map => "map"
  | .subflow => "subflow"
  | .unknown s => s

/-! ## Fan-outs and joins -/

/-- `branchOf`: branch to owning fan-out; `joinOf`: fan-out to join. -/
structure FanIndex where
  branchOf : SMap String := ∅
  joinOf : SMap String := ∅

/-- `fanOf`: the fan-out that `join` closes, if any. -/
def FanIndex.fanOf (ix : FanIndex) (join : String) : Option String :=
  (ix.joinOf.toList.find? fun fj => fj.2 == join).map Prod.fst

/-- A node listed as a branch keeps the first fan-out that lists it. -/
def claimBranches (fan : String) (m : SMap String) (branches : List String) : SMap String :=
  branches.foldl (fun m b => if b ∈ m then m else m.insert b fan) m

/-- The join of fan-out `n`, unless its next is no join or a join already taken. -/
def claimJoin (f : Flow) (ix : FanIndex) (n : Node) : SMap String :=
  match f.node n.next with
  | some j => if j.type = .join ∧ (ix.fanOf j.id).isNone then ix.joinOf.insert n.id j.id else ix.joinOf
  | none => ix.joinOf

def fanStep (f : Flow) (ix : FanIndex) (n : Node) : FanIndex :=
  if n.type = .fanout then
    { branchOf := claimBranches n.id ix.branchOf n.branches, joinOf := claimJoin f ix n }
  else ix

def Flow.fanIndex (f : Flow) : FanIndex := f.nodes.foldl (fanStep f) {}

/-- `JoinOf` -/
def Flow.joinOf (f : Flow) (fan : String) : Option String := f.fanIndex.joinOf[fan]?

/-- `WaitFor`: the branches a join waits for, all of its fan-out's when it lists none. -/
def Flow.waitFor (f : Flow) (join : String) : List String :=
  match f.node join with
  | none => []
  | some n =>
    if n.waitFor ≠ [] then n.waitFor
    else match f.fanIndex.fanOf join with
      | none => []
      | some fan => match f.node fan with
        | none => []
        | some fn => fn.branches

section
variable (x : Ext) (f : Flow)

def at_ (field : String) (i : Nat) : String := field ++ "[" ++ toString i ++ "]"

/-- What is wrong with the fresh branch `b` of fan-out `n` (`flow/graph.go:113-131`). -/
def branchProblems (n : Node) (i : Nat) (b : String) : List Problem :=
  match f.node b with
  | none => []
  | some bn =>
    (if bn.type ≠ .task ∧ bn.type ≠ .subflow then
      [⟨n.id, at_ "branches" i, "branch " ++ x.quote b ++ " is a " ++ bn.type.name ++
        " node; branches must be task or subflow nodes (a subflow can hold any graph)"⟩] else []) ++
    (if bn.onFailure ≠ "" then
      [⟨b, "on_failure", "node is a branch of fanout " ++ x.quote n.id ++
        "; a failed branch is settled by its join's policy — put on_failure on join " ++ x.quote n.next ++
        " instead"⟩] else []) ++
    (if bn.next ≠ "" ∨ bn.dynamic ≠ [] then
      [⟨b, "", "node is a branch of fanout " ++ x.quote n.id ++ " and routes onward; a branch does not advance the " ++
        "execution (its join does) — put the successor after the join instead"⟩] else [])

/-- `validateFanBranches` from branch number `i` on, with the branches claimed so far. -/
def fanBranchProblems (n : Node) : SMap String → Nat → List String → List Problem
  | _, _, [] => []
  | m, i, b :: bs =>
    match m[b]? with
    | some owner =>
      (if owner = n.id then ⟨n.id, at_ "branches" i, "lists branch " ++ x.quote b ++ " twice"⟩
       else ⟨b, "", "is a branch of fanouts " ++ x.quote owner ++ " and " ++ x.quote n.id ++
         "; a node may belong to at most one fanout"⟩) :: fanBranchProblems n m (i + 1) bs
    | none => branchProblems x f n i b ++ fanBranchProblems n (m.insert b n.id) (i + 1) bs

/-- What `validateFans` reports at node `n`, with the index filled by the nodes before it. -/
def fanProblems (ix : FanIndex) (n : Node) : List Problem :=
  if n.type = .fanout then
    fanBranchProblems x f n ix.branchOf 0 n.branches ++
      match f.node n.next with
      | none => []
      | some j =>
        if j.type ≠ .join then
          [⟨n.id, "next", "leads to " ++ x.quote j.id ++ ", a " ++ j.type.name ++ " node; a fanout's next must be a join"⟩]
        else match ix.fanOf j.id with
          | some fan => [⟨j.id, "", "closes both fanouts " ++ x.quote fan ++ " and " ++ x.quote n.id ++
              "; use one join per fanout"⟩]
          | none => []
  else []

/-- `validateJoinFan` -/
def joinProblems (ix : FanIndex) (n : Node) : List Problem :=
  if n.type = .join then
    match ix.fanOf n.id with
    | none => [⟨n.id, "", "join is not the next of any fanout (it would never be reached)"⟩]
    | some fan =>
      let branches := match f.node fan with
        | some fn => fn.branches
        | none => []
      ((n.waitFor.zipIdx.filter fun wi => !branches.contains wi.1).map fun wi =>
        ⟨n.id, at_ "wait_for" wi.2, "waits for " ++ x.quote wi.1 ++ ", which is not a branch of its fanout " ++
          x.quote fan ++ " (it would never settle)"⟩) ++
      match n.joinKind with
      | .quorum q | .min q =>
        if (f.waitFor n.id).length < q then
          [⟨n.id, "policy", n.policy ++ " exceeds the " ++ toString (f.waitFor n.id).length ++ " awaited branches"⟩]
        else []
      | _ => []
  else []

def fansProblems (ix : FanIndex) : List Node → List Problem
  | [] => []
  | n :: ns => fanProblems x f ix n ++ fansProblems (fanStep f ix n) ns

end

/-! ## Routes -/

structure Route where
  field : String
  target : String
  deriving DecidableEq, Repr

/-- Every ordinary routing transition out of `n`; a rule to `$end` leads to no node. -/
def routes (n : Node) : List Route :=
  (if n.next ≠ "" then [⟨"next", n.next⟩] else []) ++
  ((n.rules.zipIdx.filter fun ri => ri.1.toNode ≠ endTarget).map fun ri =>
    ⟨at_ "rules" ri.2 ++ ".to", ri.1.toNode⟩) ++
  (if n.onTimeout ≠ "" then [⟨"on_timeout", n.onTimeout⟩] else []) ++
  (if n.onFailure ≠ "" then [⟨"on_failure", n.onFailure⟩] else []) ++
  n.dynamic.zipIdx.map fun di => ⟨at_ "dynamic" di.2, di.1⟩

def successors (n : Node) : List String := (routes n).map Route.target ++ n.branches

section
variable (x : Ext) (f : Flow)

def routeProblems (n : Node) (r : Route) : List Problem :=
  match f.fanIndex.branchOf[r.target]? with
  | some owner =>
    [⟨n.id, r.field, "routes to " ++ x.quote r.target ++ ", a branch of fanout " ++ x.quote owner ++ "; route to " ++
      x.quote owner ++ " instead"⟩]
  | none =>
    match f.node r.target with
    | none => []
    | some t =>
      if t.type = .join ∧ f.joinOf n.id ≠ some r.target then
        [⟨n.id, r.field, "routes to join " ++ x.quote r.target ++ "; a join is reached only through its fanout"⟩]
      else []

/-- `rejectBranchEntry` -/
def branchEntryProblems : List Problem := f.nodes.flatMap fun n => (routes n).flatMap (routeProblems x f n)

/-! ## The start node -/

def isTarget (id : String) : Bool := f.nodes.any fun n => (successors n).contains id

/-- The nodes nothing leads to. -/
def sources : List String := (f.nodes.filter fun n => !isTarget f n.id).map Node.id

/-- `resolveStart`: the explicit start, or the unique node with no inbound transition. -/
def Flow.startNode : Option String :=
  if f.start ≠ "" then
    match f.node f.start with
    | none => none
    | some n => if (f.fanIndex.branchOf[n.id]?).isSome ∨ n.type = .join then none else some n.id
  else match sources f with
    | [id] => some id
    | _ => none

/-- The first node that leads to `id`. -/
def inbound (id : String) : String :=
  ((f.nodes.find? fun n => (successors n).contains id).map Node.id).getD ""

def startProblems : List Problem :=
  if f.start ≠ "" then
    match f.node f.start with
    | none => [⟨"", "start", "references unknown node " ++ x.quote f.start⟩]
    | some n =>
      if (f.fanIndex.branchOf[n.id]?).isSome ∨ n.type = .join then
        [⟨"", "start", "start node " ++ x.quote n.id ++ " must not be a fanout branch or a join"⟩]
      else []
  else match sources f with
    | [_] => []
    | [] => [⟨"", "start", "no start node (every node is routed into: " ++
        ", ".intercalate (f.nodes.map fun n => x.quote n.id ++ " by " ++ x.quote (inbound f n.id)) ++
        "); set start: explicitly"⟩]
    | ids => [⟨"", "start", "multiple start nodes [" ++ " ".intercalate ids ++
        "]; set start: explicitly or connect them"⟩]

/-! ## Reachability -/

/-- The successors of a node not seen yet, marked as seen and pushed in order. -/
def pushNew (seen stack : List String) : List String → List String × List String
  | [] => (seen, stack)
  | s :: ss => if seen.contains s then pushNew seen stack ss else pushNew (s :: seen) (s :: stack) ss

/-- The worklist search of `rejectUnreachable`; the stack's top is the list's head. -/
def reach : Nat → List String → List String → List String
  | 0, seen, _ => seen
  | _ + 1, seen, [] => seen
  | fuel + 1, seen, id :: stack =>
    let succ := match f.node id with
      | some n => successors n
      | none => []
    let (seen, stack) := pushNew seen stack succ
    reach fuel seen stack

def unreachableProblems (start : String) : List Problem :=
  let seen := reach f (f.nodes.length + 1) [start] [start]
  (f.nodes.filter fun n => !seen.contains n.id).map fun n =>
    ⟨n.id, "", "unreachable node: not connected to the start node " ++ x.quote start⟩

/-- The graph checks of `Validate`, run once every node is valid on its own. -/
def graphProblems : List Problem :=
  fansProblems x f {} f.nodes ++ f.nodes.flatMap (joinProblems x f f.fanIndex) ++ branchEntryProblems x f ++
    startProblems x f ++
    match f.startNode with
    | some start => unreachableProblems x f start
    | none => []

end

end Packtrail
