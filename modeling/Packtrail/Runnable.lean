import Packtrail.Decisions
import Packtrail.Fitting

/-
# A validated flow can always be run

What can go wrong inside a decision besides the errors it returns on purpose: a node, fan-out, map or join that is not
there, an index outside its list (`Err.panic`, ruled out in `Packtrail.Walk`), one of the two failures of `enter` for a
node that does not exist or cannot be entered, or an expression that was never compiled.

For the last, `Flow.programs` lists what `Validate` compiles (`validate.go`, `compileProblem` in `Packtrail.Validate`), and `Ext.known`
is a library that can evaluate nothing else: deciding with it is deciding with the full one (`Ask.decide_known`).
-/

namespace Packtrail

open Replay Emitter

/-! ## Compiled expressions -/

/-- The expressions of a node that `Validate` compiles. -/
def Node.programs (n : Node) : List String :=
  match n.type with
  | .choice => (n.rules.filter fun r => !r.default).map Rule.whenExpr
  | .map => n.overExpr :: if n.hasInput then [n.input] else []
  | .subflow => if n.hasInput then [n.input] else []
  | _ => []

def Flow.programs (fl : Flow) : List String :=
  (if fl.hasOutput then [fl.output] else []) ++ fl.nodes.flatMap Node.programs

/-- The search attributes, evaluated on the input of a start. -/
def Flow.attrPrograms (fl : Flow) : List String := fl.searchAttributes.toList.map Prod.snd

-- irreducible, so that comparing the two libraries never unfolds the list of programs

@[irreducible] def Ext.evalKnown (x : Ext) (fl : Flow) (e : String) (env : Env) : Except String Value :=
  if e ∈ fl.programs then x.eval e env else .error "not compiled"

@[irreducible] def Ext.evalKnownInput (x : Ext) (fl : Flow) (e : String) (input : Json) : Except String Value :=
  if e ∈ fl.attrPrograms then x.evalInput e input else .error "not compiled"

/-- `x` reduced to the expressions `fl` compiled. -/
def Ext.known (x : Ext) (fl : Flow) : Ext := { x with eval := x.evalKnown fl, evalInput := x.evalKnownInput fl }

/-- `Validate` compiled it, as a value or as a condition. -/
def Ext.Compiled (x : Ext) (e : String) : Prop := x.compileValue e = .ok () ∨ x.compilePredicate e = .ok ()

section
variable {x : Ext} {fl : Flow}

theorem compileProblem_nil {node field : String} {r : Except String Unit} (h : compileProblem node field r = []) : r = .ok () := by
  unfold compileProblem at h
  cases r with
  | error e => simp at h
  | ok u => rfl

theorem hasInput_ne {n : Node} (h : n.hasInput = true) : n.input ≠ "" := by
  intro he
  rw [Node.hasInput, he] at h
  revert h
  decide

/-- A node with an input expression delegates to a child. -/
theorem Accepted.delegates (h : Accepted x fl) {n : Node} (hn : n ∈ fl.nodes) (hi : n.hasInput = true) :
    n.type = .subflow ∨ n.type = .map ∧ n.flow ≠ "" := by
  obtain ⟨hforeign, htype, -⟩ := nodeProblems_nil (h.node n hn)
  have hset : ("input", true) ∈ fieldSet n := by simp [fieldSet, hasInput_ne hi]
  cases ht : n.type with
  | subflow => exact .inl rfl
  | map =>
    refine .inr ⟨rfl, fun hflow => ?_⟩
    rw [typeProblems, ht] at htype
    simp [mapProblems, mapItemProblems, hflow, hasInput_ne hi] at htype
  | unknown t => rw [typeProblems, ht] at htype; cases htype
  | _ => exact absurd (foreignProblems_nil hforeign (by rw [ht]; rfl) hset) (by decide)

theorem input_mem (h : Accepted x fl) {n : Node} (hn : n ∈ fl.nodes) (hi : n.hasInput = true) : n.input ∈ fl.programs := by
  refine List.mem_append_right _ (List.mem_flatMap.2 ⟨n, hn, ?_⟩)
  rcases h.delegates hn hi with ht | ⟨ht, -⟩ <;> simp [Node.programs, ht, hi]

theorem over_mem {n : Node} (hn : n ∈ fl.nodes) (ht : n.type = .map) : n.overExpr ∈ fl.programs :=
  List.mem_append_right _ (List.mem_flatMap.2 ⟨n, hn, by simp [Node.programs, ht]⟩)

theorem when_mem {n : Node} {r : Rule} (hn : n ∈ fl.nodes) (ht : n.type = .choice) (hr : r ∈ n.rules) (hd : r.default = false) :
    r.whenExpr ∈ fl.programs :=
  List.mem_append_right _ (List.mem_flatMap.2 ⟨n, hn, by
    simp only [Node.programs, ht]
    exact List.mem_map_of_mem (List.mem_filter.2 ⟨hr, by simp [hd]⟩)⟩)

theorem rulesProblems_compiled {n : Node} {i : Nat} {named : List String} {rules : List Rule}
    (h : rulesProblems x fl n i named rules = []) {r : Rule} (hr : r ∈ rules) (hd : r.default = false) :
    x.compilePredicate r.whenExpr = .ok () := by
  induction rules generalizing i named with
  | nil => cases hr
  | cons r' rules ih =>
    simp only [rulesProblems, List.append_eq_nil_iff] at h
    rcases List.mem_cons.1 hr with rfl | hr
    · have hrule := h.1
      simp only [ruleProblems, hd, List.append_eq_nil_iff] at hrule
      have hwhen := hrule.1.2
      split at hwhen
      · rename_i hdef; cases hdef
      · split at hwhen
        · cases hwhen
        · exact compileProblem_nil hwhen
    · exact ih h.2 hr

theorem Accepted.compiled (h : Accepted x fl) {n : Node} (hn : n ∈ fl.nodes) {e : String} (he : e ∈ n.programs) : x.Compiled e := by
  obtain ⟨-, htype, -⟩ := nodeProblems_nil (h.node n hn)
  unfold Node.programs at he
  split at he
  · rename_i ht
    obtain ⟨r, hr, rfl⟩ := List.mem_map.1 he
    obtain ⟨hr, hd⟩ := List.mem_filter.1 hr
    rw [typeProblems, ht] at htype
    simp only [choiceProblems, List.append_eq_nil_iff] at htype
    exact .inr (rulesProblems_compiled htype.1.1.2 hr (by simpa using hd))
  · rename_i ht
    rw [typeProblems, ht] at htype
    simp only [mapProblems, List.append_eq_nil_iff] at htype
    rcases List.mem_cons.1 he with rfl | he
    · exact .inl (compileProblem_nil htype.1.1.2)
    · split at he
      · rename_i hi
        cases List.mem_singleton.1 he
        have hflow := ((h.delegates hn hi).resolve_left (by simp [ht])).2
        have hitem := htype.1.1.1
        simp only [mapItemProblems, hflow, subflowProblems, hi] at hitem
        split at hitem
        · cases hitem
        · simp only [if_false, if_true, List.append_eq_nil_iff] at hitem
          exact .inl (compileProblem_nil hitem.2.2)
      · cases he
  · rename_i ht
    rw [typeProblems, ht] at htype
    simp only [subflowProblems, List.append_eq_nil_iff] at htype
    split at he
    · rename_i hi
      cases List.mem_singleton.1 he
      rw [if_pos hi] at htype
      exact .inl (compileProblem_nil htype.2)
    · cases he
  · cases he

/-- **Everything a decision may evaluate was compiled.** -/
theorem programs_compiled (hv : validate x fl = []) :
    (∀ e ∈ fl.programs, x.Compiled e) ∧ ∀ e ∈ fl.attrPrograms, x.Compiled e := by
  have hlocal := local_of_validate hv
  simp only [localProblems, flowLevelProblems, List.append_eq_nil_iff, List.flatMap_eq_nil_iff] at hlocal
  refine ⟨fun e he => ?_, fun e he => ?_⟩
  · rcases List.mem_append.1 he with he | he
    · have hout := hlocal.1.2.1.1.1.2
      split at he
      · rename_i ho
        cases List.mem_singleton.1 he
        rw [outputProblems, if_pos ho] at hout
        exact .inl (compileProblem_nil hout)
      · cases he
    · obtain ⟨n, hn, he⟩ := List.mem_flatMap.1 he
      exact (accepted_of_validate hv).compiled hn he
  · obtain ⟨ke, hk, rfl⟩ := List.mem_map.1 he
    have hattr := hlocal.1.2.1.2 ke hk
    simp only [attrProblems, List.append_eq_nil_iff] at hattr
    exact .inl (compileProblem_nil hattr.2)

end

/-! ## Deciding with the compiled expressions alone -/

def Ctx.known (c : Ctx) : Ctx := { c with x := c.x.known c.fl }

section
variable {c : Ctx} {k : String → DecM Unit} {n : Node}

theorem known_fl : c.known.fl = c.fl := rfl
theorem emit_known : emit c.known = emit c := rfl
theorem fail_known : fail c.known = fail c := rfl

theorem eval_known {e : String} (he : e ∈ c.fl.programs) (env : Env) : c.known.x.eval e env = c.x.eval e env := by
  show c.x.evalKnown c.fl e env = _
  rw [Ext.evalKnown, if_pos he]

theorem complete0_known : complete0 c.known = complete0 c := by
  refine congrArg (Bind.bind getSt) (funext fun s => ?_)
  by_cases ho : c.fl.hasOutput = true
  · have he : c.fl.output ∈ c.fl.programs := List.mem_append_left _ (by simp [ho])
    simp only [known_fl, ho, if_true, eval_known he, fail_known, emit_known]
  · simp only [known_fl, ho, fail_known, emit_known]
    rfl

theorem advance_known (dyn : String) : advance c.known k n dyn = advance c k n dyn := by
  simp only [advance, complete0_known]

variable (h : Accepted c.x c.fl)

include h

theorem startChild_known (hn : n ∈ c.fl.nodes) (key owner : String) (index : Nat) (item : Raw) :
    startChild c.known n key owner index item = startChild c n key owner index item := by
  refine congrArg (Bind.bind getSt) (funext fun s => ?_)
  by_cases hi : n.hasInput = true
  · simp only [hi, if_true, eval_known (input_mem h hn hi)]
    rfl
  · simp only [hi]
    rfl

theorem mapLoop_known (hn : n ∈ c.fl.nodes) (items : List Json) (limit : Int) (rounds : Nat) :
    mapLoop c.known n items limit rounds = mapLoop c n items limit rounds := by
  induction rounds with
  | zero => rfl
  | succ rounds ih =>
    simp only [mapLoop, startChild_known h hn, ih]
    rfl

theorem mapProgress_known (hn : n ∈ c.fl.nodes) : mapProgress c.known k n = mapProgress c k n := by
  simp only [mapProgress, advance_known, mapLoop_known h hn]
  rfl

theorem mapStart_known (hn : n ∈ c.fl.nodes) (ht : n.type = .map) : mapStart c.known k n = mapStart c k n := by
  simp only [mapStart, eval_known (over_mem hn ht), mapProgress_known h hn]
  rfl

omit h

theorem consume_known : consume c.known k n = consume c k n := by
  simp only [consume, advance_known]
  rfl

theorem await_known : await c.known k n = await c k n := by
  simp only [await, consume_known]
  rfl

theorem pickRule_known {env : Env} {rules : List Rule} (hr : ∀ r ∈ rules, r.default = false → r.whenExpr ∈ c.fl.programs)
    (i : Nat) (dflt : Option (Nat × Rule)) : pickRule c.known.x n env i rules dflt = pickRule c.x n env i rules dflt := by
  induction rules generalizing i dflt with
  | nil => cases dflt <;> rfl
  | cons r rules ih =>
    have ih := ih fun r' hm => hr r' (List.mem_cons_of_mem _ hm)
    by_cases hd : r.default = true
    · simp only [pickRule, hd, if_true, ih]
    · have he := hr r List.mem_cons_self (by simpa using hd)
      have hm : matchRule c.known.x env r = matchRule c.x env r := by
        simp only [matchRule, eval_known he]
        rfl
      simp only [pickRule, hd, hm, ih]

theorem choose_known (hn : n ∈ c.fl.nodes) (ht : n.type = .choice) : choose c.known k n = choose c k n := by
  have hroute : ∀ i r, route c.known k n i r = route c k n i r := fun i r => by
    simp only [route, complete0_known]
    rfl
  refine congrArg (Bind.bind getSt) (funext fun s => ?_)
  rw [pickRule_known fun r hr hd => when_mem hn ht hr hd]
  simp only [hroute]
  rfl

theorem node_mem {fl : Flow} {id : String} (h : fl.node id = some n) : n ∈ fl.nodes := List.mem_of_find?_eq_some h

theorem startBranches_known (h : Accepted c.x c.fl) (fan : String) (bs : List String) :
    startBranches c.known fan bs = startBranches c fan bs := by
  induction bs with
  | nil => rfl
  | cons b bs ih =>
    refine congrArg (Bind.bind (emit c (.entered { node := b }))) (funext fun _ => ?_)
    rw [show c.known.fl.node b = c.fl.node b from rfl]
    cases hb : c.fl.node b with
    | none => rfl
    | some bn =>
      simp only [startChild_known h (node_mem hb), ih]
      rfl

theorem enterStep_known (h : Accepted c.x c.fl) (id : String) : enterStep c.known k id = enterStep c k id := by
  refine congrArg (Bind.bind getSt) (funext fun s => ?_)
  rw [show c.known.fl.node id = c.fl.node id from rfl]
  cases hn : c.fl.node id with
  | none => rfl
  | some n =>
    have hmem := node_mem hn
    cases ht : n.type with
    | choice => simp only [ht, choose_known hmem ht]; rfl
    | map => simp only [ht, mapStart_known h hmem ht]; rfl
    | subflow => simp only [ht, startChild_known h hmem]; rfl
    | await => simp only [ht, await_known]; rfl
    | fanout => simp only [ht, fanout, startBranches_known h]; rfl
    | _ => simp only [ht]; rfl

theorem enter_known (h : Accepted c.x c.fl) : enter c.known = enter c := by
  have hfuel : ∀ f, enterFuel c.known f = enterFuel c f := by
    intro f
    induction f with
    | zero => exact funext fun id => enterStep_known h id
    | succ f ih => exact funext fun id => (congrArg (fun k => enterStep c.known k id) ih).trans (enterStep_known h id)
  funext id
  simp only [enter, hfuel]
  rfl

theorem nodeOf_known {α : Type} {id : String} {f g : Node → DecM α} (h : ∀ n ∈ c.fl.nodes, f n = g n) :
    (nodeOf c.known id >>= f) = nodeOf c id >>= g := by
  rw [show nodeOf c.known id = nodeOf c id from rfl]
  unfold nodeOf
  cases hn : c.fl.node id with
  | none => rfl
  | some n => exact h n (node_mem hn)

theorem cancelTasks_known (owner reason : String) (keys : List String) :
    cancelTasks c.known owner reason keys = cancelTasks c owner reason keys := by
  induction keys with
  | nil => rfl
  | cons key keys ih => simp only [cancelTasks, ih]; rfl

theorem checkWrites_known (s : State) (ws : List (String × Json)) :
    checkWrites c.known.x c.known.fl s ws = checkWrites c.x c.fl s ws := by
  induction ws with
  | nil => rfl
  | cons w ws ih =>
    simp only [checkWrites, ih]
    rfl

theorem checkCompletion_known (s : State) (t : Task) (output : Raw) (p : Cmd.CompleteData) :
    checkCompletion c.known s n t output p = checkCompletion c s n t output p := by
  simp only [checkCompletion, checkWrites_known]
  rfl

/-! ### Settling, with `h` for what `Validate` accepted -/

variable (h : Accepted c.x c.fl)
include h

theorem closeJoin_known (fan : String) (join : Node) (succeeded failed : List String) (ok : Bool) :
    closeJoin c.known fan join succeeded failed ok = closeJoin c fan join succeeded failed ok := by
  simp only [closeJoin, cancelTasks_known, enter_known h, advance_known]
  rfl

theorem evalJoin_known (fan : String) : evalJoin c.known fan = evalJoin c fan := by
  simp only [evalJoin, closeJoin_known h]
  rfl

theorem abortMap_known (index : Nat) : abortMap c.known n index = abortMap c n index := by
  simp only [abortMap, cancelTasks_known, enter_known h]
  rfl

theorem afterSettle_known (hn : n ∈ c.fl.nodes) (t : Task) (dyn : String) : afterSettle c.known t n dyn = afterSettle c t n dyn := by
  simp only [afterSettle, evalJoin_known h, enter_known h, mapProgress_known h hn, advance_known]

theorem taskFailed_known (t : Task) (msg : String) (retryable : Bool) (reason : String) (usage : SMap Rat) :
    taskFailed c.known t msg retryable reason usage = taskFailed c t msg retryable reason usage := by
  refine nodeOf_known fun n _ => ?_
  simp only [evalJoin_known h, abortMap_known h, enter_known h]
  rfl

theorem complete_known (p : Cmd.CompleteData) : complete c.known p = complete c p := by
  refine congrArg (Bind.bind getSt) (funext fun s => ?_)
  cases hc : current s p.toTaskRef with
  | none => rfl
  | some t =>
    refine nodeOf_known fun n hn => ?_
    simp only [checkCompletion_known, taskFailed_known h, afterSettle_known h hn]
    rfl

theorem failTask_known (p : Cmd.FailData) : failTask c.known p = failTask c p := by
  simp only [failTask, taskFailed_known h]

theorem signal_known (p : Cmd.SignalData) : signal c.known p = signal c p := by
  simp only [signal, enter_known h, consume_known]
  rfl

theorem awaitTimeout_known (tm : Timer) : awaitTimeout c.known tm = awaitTimeout c tm := by
  simp only [awaitTimeout, enter_known h]
  rfl

theorem timer_known (p : Cmd.TimerData) : timer c.known p = timer c p := by
  simp only [timer, taskFailed_known h, awaitTimeout_known h]
  rfl

theorem childDone_known (p : Cmd.ChildDoneData) : childDone c.known p = childDone c p := by
  refine congrArg (Bind.bind getSt) (funext fun s => ?_)
  cases hf : s.children.toList.find? fun kc => kc.2.childID == p.childID with
  | none => rfl
  | some kc =>
    obtain ⟨key, ch⟩ := kc
    refine congrArg (Bind.bind (emit c _)) (funext fun _ => congrArg (Bind.bind getSt) (funext fun s => ?_))
    rw [show overBudgetWith c.known s ∅ = overBudgetWith c s ∅ from rfl]
    cases hb : overBudgetWith c s ∅ with
    | some excess => rfl
    | none =>
      refine nodeOf_known fun n hn => ?_
      simp only [evalJoin_known h, mapProgress_known h hn, abortMap_known h, enter_known h, advance_known]
      rfl

theorem start_known (p : Cmd.StartData) : start c.known p = start c p := by
  have hattrs : ∀ input, searchAttrs c.known input = searchAttrs c input := by
    intro input
    simp only [searchAttrs, Std.ExtTreeMap.foldl_eq_foldl_toList, known_fl]
    refine List.foldl_ext _ _ _ fun m ke hm => ?_
    have he : c.known.x.evalInput ke.2 input = c.x.evalInput ke.2 input := by
      show c.x.evalKnownInput c.fl ke.2 input = _
      have hmem : ke.2 ∈ c.fl.attrPrograms := List.mem_map_of_mem hm
      rw [Ext.evalKnownInput, if_pos hmem]
    rw [he]
  simp only [start, hattrs, enter_known h]
  rfl

theorem decideData_known (d : CmdData) : decideData c.known d = decideData c d := by
  cases d with
  | start p => exact start_known h p
  | complete p => exact complete_known h p
  | fail p => exact failTask_known h p
  | signal p => exact signal_known h p
  | timer p => exact timer_known h p
  | childDone p => exact childDone_known h p
  | update writes => simp only [decideData, update, checkWrites_known]; rfl
  | _ => rfl

/-! ### Forking -/

theorem rekickAwaits_known (nodes : List String) : rekickAwaits c.known nodes = rekickAwaits c nodes := by
  induction nodes with
  | nil => rfl
  | cons node nodes ih =>
    refine nodeOf_known fun n _ => ?_
    simp only [enter_known h, await_known, ih]

theorem rekickChildren_known (keys : List String) : rekickChildren c.known keys = rekickChildren c keys := by
  induction keys with
  | nil => rfl
  | cons key keys ih =>
    refine congrArg (Bind.bind getSt) (funext fun s => ?_)
    split
    · rfl
    · cases hch : s.children[key]? with
      | none => rfl
      | some ch =>
        refine nodeOf_known fun n hn => ?_
        simp only [startChild_known h hn, ih]

theorem rekick_known : rekick c.known = rekick c := by
  have htasks : ∀ keys, rekickTasks c.known keys = rekickTasks c keys := by
    intro keys
    induction keys with
    | nil => rfl
    | cons key keys ih => simp only [rekickTasks, ih]; rfl
  simp only [rekick, htasks, rekickAwaits_known h, rekickChildren_known h]

theorem forkProg_known (src : State) (source : String) (seq : Nat) (writes : SMap Json) :
    forkProg c.known src source seq writes = forkProg c src source seq writes := by
  simp only [forkProg, checkWrites_known, rekick_known h]
  rfl

end

/-- **Only compiled expressions are evaluated.** -/
theorem Ask.decide_known {x : Ext} {fl : Flow} (hv : validate x fl = []) (a : Ask) (s : State) (now : Time) :
    a.decide (x.known fl) fl s now = a.decide x fl s now := by
  have h := accepted_of_validate hv
  cases a with
  | command cmd =>
    have hdata := @decideData_known ⟨x, fl, now, cmd.id⟩ h cmd.data
    simp only [Ask.decide, Packtrail.decide]
    rw [← hdata]
    rfl
  | fork src source seq cmdID writes =>
    have hprog := @forkProg_known ⟨x, fl, now, cmdID⟩ h src source seq writes
    simp only [Ask.decide, decideFork]
    rw [← hprog]
    rfl

/-! ## Every decision of a validated flow -/

/-- The two failures of `enter` (`decide.go:358-389`). -/
def EnterFailure (x : Ext) (fl : Flow) (d : Event.Failed) : Prop :=
  d.reason = "error" ∧
    (fl.node d.node = none ∧ d.error = "unknown node " ++ x.quote d.node ∨
      ∃ n, fl.node d.node = some n ∧ n.type.enterable = false ∧
        d.error = "node " ++ x.quote d.node ++ " of type " ++ n.type.name ++ " cannot be entered")

section
variable {x : Ext} {fl : Flow} {s : State} {log : List (List Event)}

theorem Payload.Blames.not_enterFailure {d : Event.Failed} (h : (Payload.failed d).Blames fl) : ¬ EnterFailure x fl d := by
  rintro ⟨hreason, hcase⟩
  obtain ⟨n, hn, ht⟩ := h hreason
  rcases hcase with ⟨hnone, -⟩ | ⟨n', hn', ht', -⟩
  · rw [hnone] at hn
    cases hn
  · rw [Option.some.inj (hn'.symm.trans hn), ht] at ht'
    cases ht'

/-- **A validated flow can always be run**: whatever is asked of a reachable state, no node, fan-out, map, join or index is
missed, `enter` never fails, the rule a choice names exists, and only compiled expressions are evaluated. -/
theorem validated_flow_runs (hv : validate x fl = []) (h : Reachable x fl s log) (a : Ask) (ha : (Request.ask a).Sourced x fl)
    (now : Time) :
    (∀ e, (a.decide x fl s now).result = .error e → e.benign) ∧
    (∀ evs, (a.decide x fl s now).result = .ok evs → ∀ ev ∈ evs,
      (∀ d, ev.data = .failed d → ¬ EnterFailure x fl d) ∧
      ∀ d, ev.data = .choice d → ∃ nd r, fl.node d.node = some nd ∧ nd.rules[d.rule]? = some r ∧ d.name = r.name) ∧
    (∀ e ∈ fl.programs ++ fl.attrPrograms, x.Compiled e) ∧
    a.decide (x.known fl) fl s now = a.decide x fl s now := by
  have wf := wellFormed_of_validate hv
  have hcomp := programs_compiled hv
  refine ⟨fun e he => ?_, fun evs hok ev hmem => ?_, fun e he => (List.mem_append.1 he).elim (hcomp.1 e) (hcomp.2 e),
    a.decide_known hv s now⟩
  · obtain ⟨b, hdec⟩ := h.decides wf ha now
    rcases hdec with ⟨evs, hok, -⟩ | ⟨e', he', hb⟩
    · cases hok.symm.trans he
    · cases he'.symm.trans he
      exact hb
  · have hpath := Ask.decided wf (h.fits wf) (fun src hs => by
      obtain ⟨-, slog, hr⟩ := ha src hs
      exact hr.fits wf) hok
    have hev := hpath.all (P := fun ev => ev.data.Blames fl ∧
      ∀ d, ev.data = .choice d → ∃ nd r, fl.node d.node = some nd ∧ nd.rules[d.rule]? = some r ∧ d.name = r.name)
      (fun s ev hd => ⟨hd.blames, fun d hc => by
        have hdue := hd.due
        rw [hc] at hdue
        obtain ⟨nd, r, hnd, hr, hname, -⟩ := hdue
        exact ⟨nd, r, hnd, hr, hname⟩⟩) ev hmem
    refine ⟨fun d hd => ?_, hev.2⟩
    have hb := hev.1
    rw [hd] at hb
    exact hb.not_enterFailure

end

/-- A choice that ends or goes to a task. -/
def pickedReview : Flow :=
  { oneTask with
    start := "pick"
    nodes := [{ id := "pick", type := .choice, rules := [{ whenExpr := "input.urgent", toNode := "draft" }, { default := true, toNode := endTarget }] },
      { id := "draft", type := .task, kind := "write" }] }

theorem pickedReview_valid : validate plainExt pickedReview = [] := by decide +kernel

theorem pickedReview_runs :
    (decide plainExt pickedReview (State.new "r1") startReview 1).events.length = 4 ∧
    (∀ e ∈ pickedReview.programs ++ pickedReview.attrPrograms, plainExt.Compiled e) ∧
    (decide (plainExt.known pickedReview) pickedReview (State.new "r1") startReview 1) =
      decide plainExt pickedReview (State.new "r1") startReview 1 :=
  have h := validated_flow_runs pickedReview_valid (Reachable.new "r1") (.command startReview) (Ask.sourced_command _ _ _) 1
  ⟨by decide +kernel, h.2.2⟩

end Packtrail
