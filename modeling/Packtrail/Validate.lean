import Packtrail.Graph

/-
# Validating a flow

`Validate` (`flow/validate.go:41-74`) and its node checks, in the order in which they report. A list
of problems stands for the joined error; the flow is accepted when the list is empty. The compiled
expressions and schemas `Validate` keeps are those of `Ext`, so only their compile errors appear here.
-/

namespace Packtrail

section
variable (x : Ext) (f : Flow)

/-- `p.add(node, field, err, "")` when there is an error. -/
def causeProblem (node field : String) : Option String → List Problem
  | some e => [⟨node, field, e⟩]
  | none => []

def compileProblem (node field : String) : Except String Unit → List Problem
  | .error e => [⟨node, field, e⟩]
  | .ok _ => []

def problemIf (b : Bool) (node field msg : String) : List Problem := if b then [⟨node, field, msg⟩] else []

/-! ## Flow level -/

/-- `indexNodes`: every id a token and used once. -/
def indexProblems : List String → List Node → List Problem
  | _, [] => []
  | seen, n :: ns =>
    causeProblem n.id "id" (checkToken x.quote "node id" n.id) ++
      if seen.contains n.id then ⟨n.id, "id", "duplicate node id"⟩ :: indexProblems seen ns
      else indexProblems (n.id :: seen) ns

def OnExpire.known : OnExpire → Bool
  | .unknown _ => false
  | _ => true

def OnExpire.name : OnExpire → String
  | .unset => ""
  | .archive => "archive"
  | .delete => "delete"
  | .unknown s => s

def expiryProblems : List Problem :=
  problemIf (!f.onExpire.known) "" "on_expire"
    ("unknown value " ++ x.quote f.onExpire.name ++ " (archive or delete)") ++
  problemIf (f.onExpire ≠ .unset && f.retention == 0) "" "on_expire"
    "needs a retention: without one the execution never expires" ++
  problemIf (f.archiveRetention < 0) "" "archive_retention" "must not be negative" ++
  problemIf (0 < f.archiveRetention && f.onExpire = .delete) "" "archive_retention"
    "has no effect with on_expire: delete, which leaves no archive"

def Json.isArr : Json → Bool
  | .arr _ => true
  | _ => false

def Json.isNum : Json → Bool
  | .num _ => true
  | _ => false

def Reducer.name : Reducer → String
  | .unset => ""
  | .replace => "replace"
  | .append => "append"
  | .merge => "merge"
  | .sum => "sum"
  | .unknown s => s

/-- Whether a default fits the reducer it starts; nil fits every one. -/
def Channel.defaultFits (c : Channel) : Bool :=
  match c.reducerOrDefault with
  | .append => c.default.isArr || isNull (some c.default)
  | .merge => isObject (some c.default) || isNull (some c.default)
  | .sum => c.default.isNum || isNull (some c.default)
  | _ => true

def channelProblems (name : String) (c : Channel) : List Problem :=
  causeProblem "" ("channels." ++ name) (checkToken x.quote "channel name" name) ++
    match c.reducerOrDefault with
    | .unknown s => [⟨"", "channels." ++ name ++ ".reducer",
        "unknown reducer " ++ x.quote s ++ " (want replace, append, merge or sum)"⟩]
    | r => problemIf (!c.defaultFits) "" ("channels." ++ name ++ ".default") ("does not fit reducer " ++ x.quote r.name)

def outputProblems : List Problem :=
  if f.hasOutput then compileProblem "" "output" (x.compileValue f.output) else []

def budgetProblems (k : String) (b : Rat) : List Problem :=
  causeProblem "" ("budget." ++ k) (checkToken x.quote "budget counter" k) ++
    problemIf (b ≤ 0) "" ("budget." ++ k) "must be positive"

def attrProblems (k e : String) : List Problem :=
  causeProblem "" ("search_attributes." ++ k) (checkToken x.quote "search attribute" k) ++
    compileProblem "" ("search_attributes." ++ k) (x.compileValue e)

/-- `strings.ContainsAny(subject, " \t\r\n")` -/
def hasBlank (s : String) : Bool := s.toList.any fun c => c = ' ' ∨ c = '\t' ∨ c = '\r' ∨ c = '\n'

def triggerProblems (i : Nat) (tr : Trigger) : List Problem :=
  problemIf (trimSpace tr.subject = "" || hasBlank tr.subject) "" (at_ "triggers" i ++ ".subject")
    (x.quote tr.subject ++ " is not a valid subject") ++
  if tr.stream = "" then []
  else causeProblem "" (at_ "triggers" i ++ ".stream") (checkToken x.quote "trigger stream" tr.stream)

def flowLevelProblems : List Problem :=
  problemIf (f.maxSteps < 0) "" "max_steps" "must not be negative" ++
  problemIf (f.retention < 0) "" "retention" "must not be negative" ++
  expiryProblems x f ++
  (f.channels.toList.flatMap fun kc => channelProblems x kc.1 kc.2) ++
  outputProblems x f ++
  (f.budget.toList.flatMap fun kb => budgetProblems x kb.1 kb.2) ++
  (f.searchAttributes.toList.flatMap fun ke => attrProblems x ke.1 ke.2) ++
  f.triggers.zipIdx.flatMap fun ti => triggerProblems x ti.2 ti.1

/-! ## Nodes -/

/-- `ref`: `field` of node `n` names an existing node. -/
def refProblems (n : Node) (field id : String) : List Problem :=
  if id = "" then [⟨n.id, field, "is required"⟩]
  else if (f.node id).isNone then [⟨n.id, field, "references unknown node " ++ x.quote id⟩]
  else []

/-- `fieldSet`, in the order of the field names. -/
def fieldSet (n : Node) : List (String × Bool) :=
  [("branches", n.branches ≠ []), ("cache", n.cacheTTL.isSome), ("concurrency", n.concurrency.isSome),
   ("dynamic", n.dynamic ≠ []), ("flow", n.flow ≠ ""), ("input", n.input ≠ ""), ("kind", n.kind ≠ ""),
   ("max_parallel", n.maxParallel ≠ 0), ("next", n.next ≠ ""), ("on_error", n.onError ≠ .unset),
   ("on_failure", n.onFailure ≠ ""), ("on_parent_close", n.onParentClose ≠ .unset),
   ("on_timeout", n.onTimeout ≠ ""), ("output_schema", !isNull (some n.outputSchema)), ("over", n.overExpr ≠ ""),
   ("policy", n.policy ≠ ""), ("retry", n.retry.isSome), ("rules", !n.rules.isEmpty), ("signal", n.signal ≠ ""),
   ("timeout", n.timeout ≠ 0), ("wait_for", n.waitFor ≠ [])]

def allowedFields : NodeType → Option (List String)
  | .task => some ["kind", "timeout", "retry", "output_schema", "cache", "concurrency", "dynamic", "next", "on_failure"]
  | .choice => some ["rules", "on_error"]
  | .fanout => some ["branches", "next"]
  | .join => some ["wait_for", "policy", "next", "on_failure"]
  | .await => some ["signal", "timeout", "on_timeout", "next"]
  | .map => some ["kind", "over", "max_parallel", "timeout", "retry", "output_schema", "next", "on_failure", "flow",
      "input", "on_parent_close"]
  | .subflow => some ["flow", "input", "on_parent_close", "next", "on_failure"]
  | .unknown _ => none

/-- The fields set on `n` that do not belong to its type. -/
def foreignFields (n : Node) : List String :=
  match allowedFields n.type with
  | none => []
  | some allowed => ((fieldSet n).filter fun fb => fb.2 && !allowed.contains fb.1).map Prod.fst

def foreignProblems (n : Node) : List Problem :=
  problemIf (!(foreignFields n).isEmpty) n.id ""
    ("field(s) [" ++ " ".intercalate (foreignFields n) ++ "] do not apply to a " ++ n.type.name ++ " node")

def metaProblems (n : Node) : List Problem :=
  match n.metaData with
  | some (.error e) => [⟨n.id, "meta", "must encode as JSON (use string keys in nested maps): " ++ e⟩]
  | _ => []

def Backoff.known : Backoff → Bool
  | .unknown _ => false
  | _ => true

def Backoff.name : Backoff → String
  | .unset => ""
  | .fixed => "fixed"
  | .linear => "linear"
  | .exponential => "exponential"
  | .unknown s => s

def retryProblems (n : Node) (r : Retry) : List Problem :=
  problemIf (r.maxAttempts < 0 || maxRetryAttempts < r.maxAttempts) n.id "retry.max_attempts"
    "must be between 0 and 64" ++
  (if r.backoff.known then
    problemIf (r.backoff ≠ .unset && r.maxAttempts < 2) n.id "retry.max_attempts"
      ("retry declares backoff " ++ x.quote r.backoff.name ++ " but max_attempts < 2, so it would never retry")
   else [⟨n.id, "retry.backoff", "unknown backoff " ++ x.quote r.backoff.name ++
     " (want fixed, linear or exponential)"⟩]) ++
  problemIf (r.delay < 0) n.id "retry.delay" "must not be negative" ++
  problemIf (r.maxDelay < 0) n.id "retry.max_delay" "must not be negative"

/-- `validateAttemptPolicy` -/
def attemptProblems (n : Node) : List Problem :=
  problemIf (n.timeout < 0) n.id "timeout" "must not be negative" ++
  (match n.retry with
    | some r => retryProblems x n r
    | none => []) ++
  if isNull (some n.outputSchema) then [] else compileProblem n.id "output_schema" (x.compileSchema n.outputSchema)

def taskProblems (n : Node) : List Problem :=
  causeProblem n.id "kind" (checkToken x.quote "worker kind" n.kind) ++
  attemptProblems x n ++
  (match n.cacheTTL with
    | some ttl => problemIf (ttl ≤ 0) n.id "cache.ttl" "must be positive"
    | none => []) ++
  (match n.concurrency with
    | some cc => problemIf (cc.max ≤ 0) n.id "concurrency.max" "must be positive" ++
        compileProblem n.id "concurrency.key" (x.compileValue cc.key)
    | none => []) ++
  n.dynamic.zipIdx.flatMap fun di => refProblems x f n (at_ "dynamic" di.2) di.1

def ruleNameProblems (n : Node) (field : String) (named : List String) (name : String) : List Problem :=
  if name = "" then []
  else match checkToken x.quote "rule name" name with
    | some e => [⟨n.id, field ++ ".name", e⟩]
    | none => problemIf (named.contains name) n.id (field ++ ".name") ("duplicate rule name " ++ x.quote name)

def ruleProblems (n : Node) (i : Nat) (named : List String) (r : Rule) : List Problem :=
  ruleNameProblems x n (at_ "rules" i) named r.name ++
  (if r.default then
    problemIf (trimSpace r.whenExpr ≠ "") n.id (at_ "rules" i ++ ".when")
      "a default rule must not also carry a when expression"
   else if trimSpace r.whenExpr = "" then
    [⟨n.id, at_ "rules" i ++ ".when", "non-default rule needs a when expression"⟩]
   else compileProblem n.id (at_ "rules" i ++ ".when") (x.compilePredicate r.whenExpr)) ++
  if r.toNode = endTarget then [] else refProblems x f n (at_ "rules" i ++ ".to") r.toNode

/-- The rules of a choice from number `i` on, with the names used before. -/
def rulesProblems (n : Node) : Nat → List String → List Rule → List Problem
  | _, _, [] => []
  | i, named, r :: rs => ruleProblems x f n i named r ++ rulesProblems n (i + 1) (r.name :: named) rs

def defaultRules (n : Node) : Nat := (n.rules.filter Rule.default).length

def OnError.known : OnError → Bool
  | .unknown _ => false
  | _ => true

def OnError.name : OnError → String
  | .unset => ""
  | .fail => "fail"
  | .unknown s => s

def choiceProblems (n : Node) : List Problem :=
  problemIf n.rules.isEmpty n.id "rules" "at least one rule is required" ++
  rulesProblems x f n 0 [] n.rules ++
  problemIf (!n.rules.isEmpty && defaultRules n ≠ 1) n.id "rules"
    ("exactly one default rule is required (got " ++ toString (defaultRules n) ++ ")") ++
  problemIf (!n.onError.known) n.id "on_error" ("unknown value " ++ x.quote n.onError.name ++ " (want \"fail\" or omit)")

def fanoutProblems (n : Node) : List Problem :=
  (if n.branches = [] then [⟨n.id, "branches", "at least one branch is required"⟩]
   else problemIf (maxBranches < n.branches.length) n.id "branches"
    "at most 256 branches (use a map node for wider fan-outs)") ++
  (n.branches.zipIdx.flatMap fun bi => refProblems x f n (at_ "branches" bi.2) bi.1) ++
  problemIf (n.next = "") n.id "next" "is required and must be a join node"

/-- The `wait_for` list from number `i` on, with the branches listed before. -/
def waitForProblems (n : Node) : Nat → List String → List String → List Problem
  | _, _, [] => []
  | i, seen, w :: ws =>
    refProblems x f n (at_ "wait_for" i) w ++
      problemIf (seen.contains w) n.id (at_ "wait_for" i) ("lists " ++ x.quote w ++ " twice") ++
      waitForProblems n (i + 1) (w :: seen) ws

def policyProblems (n : Node) : List Problem :=
  match n.joinKind with
  | .all | .any => []
  | .quorum q => problemIf (q ≤ 0) n.id "policy" "quorum:N needs N > 0"
  | .min q => problemIf (q < 0) n.id "policy" "min:N needs N >= 0"
  | .unknown _ => [⟨n.id, "policy", "unknown policy " ++ x.quote n.policy ++ " (want all, any, quorum:N or min:N)"⟩]

def awaitProblems (n : Node) : List Problem :=
  causeProblem n.id "signal" (checkToken x.quote "signal name" n.signal) ++
  problemIf (n.timeout ≤ 0) n.id "timeout" "is required and must be positive" ++
  if n.onTimeout = "" then [] else refProblems x f n "on_timeout" n.onTimeout

def ParentClose.known : ParentClose → Bool
  | .unknown _ => false
  | _ => true

def ParentClose.name : ParentClose → String
  | .unset => ""
  | .cancel => "cancel"
  | .abandon => "abandon"
  | .unknown s => s

def subflowProblems (n : Node) : List Problem :=
  causeProblem n.id "flow" (checkToken x.quote "subflow name" n.flow) ++
  problemIf (!n.onParentClose.known) n.id "on_parent_close"
    ("unknown value " ++ x.quote n.onParentClose.name ++ " (want cancel or abandon)") ++
  if n.hasInput then compileProblem n.id "input" (x.compileValue n.input) else []

/-- `validateMapItems` -/
def mapItemProblems (n : Node) : List Problem :=
  if n.kind ≠ "" ∧ n.flow ≠ "" then
    [⟨n.id, "", "set kind (a task per item) or flow (a subflow per item), not both"⟩]
  else if n.flow = "" then
    problemIf (n.input ≠ "" || n.onParentClose ≠ .unset) n.id ""
      "input and on_parent_close need flow (a subflow per item)" ++
    causeProblem n.id "kind" (checkToken x.quote "worker kind" n.kind)
  else
    problemIf (0 < n.timeout || n.retry.isSome || !isNull (some n.outputSchema)) n.id ""
      "timeout, retry and output_schema apply to tasks; with flow, set them on the child flow's nodes" ++
    subflowProblems x n

def mapProblems (n : Node) : List Problem :=
  mapItemProblems x n ++
  compileProblem n.id "over" (x.compileValue n.overExpr) ++
  problemIf (n.maxParallel < 0 || maxParallelLimit < n.maxParallel) n.id "max_parallel" "must be between 0 and 256" ++
  if n.flow = "" then attemptProblems x n else []

/-- The checks of `validateNode` that depend on the type. -/
def typeProblems (n : Node) : List Problem :=
  match n.type with
  | .task => taskProblems x f n
  | .choice => choiceProblems x f n
  | .fanout => fanoutProblems x f n
  | .join => waitForProblems x f n 0 [] n.waitFor ++ policyProblems x n
  | .await => awaitProblems x f n
  | .map => mapProblems x n
  | .subflow => subflowProblems x n
  | .unknown t => [⟨n.id, "type", "unknown type " ++ x.quote t⟩]

/-- `validateNodes` at one node: its own fields, then the references every type shares. -/
def nodeProblems (n : Node) : List Problem :=
  foreignProblems n ++ metaProblems n ++ typeProblems x f n ++
  (if n.next = "" then []
   else refProblems x f n "next" n.next ++
    problemIf (n.next = n.id) n.id "next" "points to itself (would loop forever with no exit)") ++
  if n.onFailure = "" then []
  else refProblems x f n "on_failure" n.onFailure ++
    problemIf (n.onFailure = n.id) n.id "on_failure" "points to itself; to try again, use retry"

/-! ## The whole flow -/

def supportedVersion : String := "1"

def headerProblems : List Problem :=
  causeProblem "" "name" (checkToken x.quote "flow name" f.name) ++
  problemIf (trimSpace f.version ≠ "" && trimSpace f.version ≠ supportedVersion) "" "version"
    ("unsupported version " ++ x.quote f.version ++ " (this build supports " ++ x.quote supportedVersion ++ ")")

/-- Everything checked before the graph. -/
def localProblems : List Problem :=
  headerProblems x f ++ indexProblems x [] f.nodes ++ flowLevelProblems x f ++ f.nodes.flatMap (nodeProblems x f)

def validate : List Problem :=
  if f.nodes.isEmpty then headerProblems x f ++ [⟨"", "nodes", "no nodes"⟩]
  else if localProblems x f ≠ [] then localProblems x f
  else graphProblems x f

end

end Packtrail
