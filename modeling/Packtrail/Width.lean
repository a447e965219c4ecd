import Packtrail.Entering
import Packtrail.Shape
import Packtrail.CommandIds
import Packtrail.Engine

/-
# How wide a decision can get

`MaxBranches` is chosen so that a fan-out and the three events of each of its branches stay under the 1000 events a decision
may append (`flow/flow.go:118-125`). A decision may also close a join before it opens the next fan-out
(`closeJoin`, `decide.go:922-966`), with one more event for every branch it cancels.

**`narrow_decisions_fit`**: in a flow of tasks, subflows, fan-outs and joins whose joins leave room for the branches they
cancel and for the node they lead to (`Narrow`), every decision fits. `Costs` counts the events of a program.
-/

namespace Packtrail

open Emitter Replay

/-- `eventlog.MaxEvents` -/
def maxEvents : Nat := 1000

/-! ## Events of a node -/

/-- The attempt and its timer. -/
def attemptCost (n : Node) : Nat := if 0 < n.timeout then 2 else 1

def branchCost (fl : Flow) (b : String) : Nat :=
  match fl.node b with
  | none => 1
  | some n => if n.type = .subflow then 2 else 1 + attemptCost n

/-- The most events that entering node `id` emits, in a flow of tasks, subflows, fan-outs and joins. -/
def enterCost (fl : Flow) (id : String) : Nat :=
  match fl.node id with
  | none => 1
  | some n =>
    match n.type with
    | .task => 1 + attemptCost n
    | .fanout => 2 + (n.branches.map (branchCost fl)).sum
    | _ => 2

/-- The same for a transition, which ends the execution when there is no target. -/
def routeCost (fl : Flow) (target : String) : Nat := if target = "" then 1 else enterCost fl target

/-- What follows once a join is closed. -/
def joinCost (fl : Flow) (join : Node) : Nat := max (routeCost fl join.next) (routeCost fl join.onFailure)

/-- Tasks, subflows, fan-outs and joins only. -/
def Flow.Basic (fl : Flow) : Prop :=
  ∀ n ∈ fl.nodes, n.type = .task ∨ n.type = .subflow ∨ n.type = .fanout ∨ n.type = .join

/-- A join has room for the branches of its fan-out and for what it leads to. The other four events are the timer that fired,
the attempt that timed out, the entry of the join and its closing. -/
def Flow.Narrow (fl : Flow) : Prop :=
  ∀ fan fn join jn, fl.node fan = some fn → fn.type = .fanout → fl.joinOf fan = some join → fl.node join = some jn →
    fn.branches.length + joinCost fl jn + 4 ≤ maxEvents

/-! ## Counting events -/

/-- Program `m` run from `s` emits at most `k` events. -/
def Costs {α : Type} (m : DecM α) (s : State) (k : Nat) : Prop := Yields (fun _ => True) m s fun _ _ evs => evs.length ≤ k

section
variable {c : Ctx} {s : State} {k k' : Nat}

theorem yields_nodeOf {α : Type} {id : String} {f : Node → DecM α} {P : α → State → List Event → Prop}
    (h : ∀ n, c.fl.node id = some n → Yields (fun _ => True) (f n) s P) : Yields (fun _ => True) (nodeOf c id >>= f) s P := by
  cases hn : c.fl.node id with
  | none =>
    unfold nodeOf
    rw [hn]
    exact Yields.throw trivial
  | some n =>
    unfold nodeOf
    rw [hn]
    exact h n hn

namespace Costs

variable {α : Type}

theorem pure (a : α) (k : Nat) : Costs (Pure.pure a : DecM α) s k := Yields.pure (Nat.zero_le _)

theorem throw (e : Err) (k : Nat) : Costs (MonadExcept.throw e : DecM α) s k := Yields.throw trivial

theorem mono {m : DecM α} (h : Costs m s k) (hk : k ≤ k') : Costs m s k' :=
  Yields.mono h fun _ _ _ hl => Nat.le_trans hl hk

theorem read {f : State → DecM α} (h : Costs (f s) s k) : Costs (getSt >>= f) s k := h

theorem bind {β : Type} {m : DecM α} {f : α → DecM β} (hm : Costs m s k) (hf : ∀ a s', Costs (f a) s' k') :
    Costs (m >>= f) s (k + k') :=
  Yields.bind hm fun a s' evs hl => Yields.mono (hf a s') fun _ _ evs' hl' => by
    rw [List.length_append]
    exact Nat.add_le_add hl hl'

/-- One event, then a program run from the state it leaves. -/
theorem emit_then {p : Payload} {m : DecM Unit} (h : ∀ s', c.apply s (c.event p s) = .ok s' → Costs m s' k) :
    Costs (do emit c p; m) s (k + 1) := by
  have hemit : Yields (fun _ => True) (emit c p) s fun _ s' evs => c.apply s (c.event p s) = .ok s' ∧ evs.length = 1 :=
    Yields.emit (fun s' ha => ⟨ha, rfl⟩) fun _ _ => trivial
  refine Yields.bind hemit fun _ s' evs ⟨ha, hl⟩ => Yields.mono (h s' ha) fun _ _ evs' hl' => ?_
  rw [List.length_append, hl]
  omega

theorem emit {p : Payload} : Costs (Packtrail.emit c p) s 1 := Yields.emit (fun _ _ => Nat.le_refl _) fun _ _ => trivial

theorem ite {p : Prop} [Decidable p] {m m' : DecM α} (h : p → Costs m s k) (h' : ¬p → Costs m' s k) :
    Costs (if p then m else m') s k := by
  split
  · exact h ‹_›
  · exact h' ‹_›

theorem nodeOf_then {id : String} {f : Node → DecM α} (h : ∀ n, c.fl.node id = some n → Costs (f n) s k) :
    Costs (nodeOf c id >>= f) s k := yields_nodeOf h

end Costs

theorem fail_costs (reason msg node : String) : Costs (fail c reason msg node) s 1 :=
  .read (Yields.getAux fun _ => Costs.emit)

theorem complete0_costs : Costs (complete0 c) s 1 := by
  refine .read (.ite (fun _ => ?_) fun _ => .ite (fun _ => .emit) fun _ => .emit)
  split
  · exact fail_costs _ _ _
  · split
    · exact fail_costs _ _ _
    · exact .ite (fun _ => .emit) fun _ => .ite (fun _ => .emit) fun _ => fail_costs _ _ _

theorem timerAt_costs (p : TimerPurpose) (after : Int) (key node : String) (gen attempt : Nat) :
    Costs (timerAt c p after key node gen attempt) s 1 := .read .emit

theorem schedule_costs (n : Node) (key owner : String) (index : Nat) (item : Raw) (rs : Resumption) (gen attempt : Nat) :
    Costs (schedule c n key owner index item rs gen attempt) s (attemptCost n) := by
  refine .read ?_
  by_cases ht : 0 < n.timeout
  · simp only [attemptCost, ht, if_true]
    exact .emit_then fun _ _ => timerAt_costs _ _ _ _ _ _
  · simp only [attemptCost, ht, if_false]
    exact .emit_then fun _ _ => .pure _ _

theorem startChild_costs (n : Node) (key owner : String) (index : Nat) (item : Raw) :
    Costs (startChild c n key owner index item) s 1 := by
  refine .read ?_
  simp only
  split
  · exact fail_costs _ _ _
  · exact .ite (fun _ => .emit) fun _ => fail_costs _ _ _

theorem startBranches_costs (fan : String) : ∀ (bs : List String) (s : State),
    Costs (startBranches c fan bs) s (bs.map (branchCost c.fl)).sum
  | [], _ => .pure _ _
  | b :: bs, s => by
    have hrest : ∀ s', Costs (do
        let s ← getSt
        if s.status.terminal then pure () else startBranches c fan bs) s' (bs.map (branchCost c.fl)).sum := fun s' =>
      .read (.ite (fun _ => .pure _ _) fun _ => startBranches_costs fan bs s')
    rw [List.map_cons, List.sum_cons]
    cases hn : c.fl.node b with
    | none =>
      have hcost : branchCost c.fl b = 1 := by simp only [branchCost, hn]
      rw [hcost, Nat.add_comm]
      refine .emit_then fun s₁ _ => ?_
      simp only [hn]
      exact .throw _ _
    | some bn =>
      by_cases hsub : bn.type = .subflow
      · have hcost : branchCost c.fl b = 1 + 1 := by simp only [branchCost, hn, hsub, if_true]
        rw [hcost, Nat.add_right_comm]
        refine .emit_then fun s₁ _ => ?_
        simp only [hn, hsub, if_true]
        exact (startChild_costs _ _ _ _ _).bind fun _ s₂ => hrest s₂
      · have hcost : branchCost c.fl b = attemptCost bn + 1 := by simp only [branchCost, hn, hsub, if_false, Nat.add_comm]
        rw [hcost, Nat.add_right_comm]
        refine .emit_then fun s₁ _ => ?_
        simp only [hn, hsub, if_false]
        exact (schedule_costs _ _ _ _ _ _ _ _).bind fun _ s₂ => hrest s₂

theorem enterCost_pos (fl : Flow) (id : String) : 1 ≤ enterCost fl id := by
  unfold enterCost
  split
  · exact Nat.le_refl _
  · split <;> omega

theorem enterStep_costs (hb : c.fl.Basic) {k : String → DecM Unit} (id : String) (s : State) :
    Costs (enterStep c k id) s (enterCost c.fl id) := by
  refine .read ?_
  cases hn : c.fl.node id with
  | none => exact (fail_costs _ _ _).mono (enterCost_pos _ _)
  | some n =>
    refine .ite (fun _ => (fail_costs _ _ _).mono (enterCost_pos _ _)) fun _ => ?_
    have hcost : enterCost c.fl id = match n.type with
        | .task => 1 + attemptCost n
        | .fanout => 2 + (n.branches.map (branchCost c.fl)).sum
        | _ => 2 := by simp only [enterCost, hn]
    rcases hb n (Flow.node_mem hn) with ht | ht | ht | ht
    · rw [hcost, ht, Nat.add_comm]
      exact .emit_then fun s₁ _ => schedule_costs _ _ _ _ _ _ _ _
    · rw [hcost, ht]
      exact .emit_then fun s₁ _ => startChild_costs _ _ _ _ _
    · rw [hcost, ht]
      show Costs _ s (2 + (n.branches.map (branchCost c.fl)).sum)
      rw [Nat.add_comm 2]
      refine .emit_then fun s₁ _ => ?_
      show Costs (fanout c n) s₁ _
      exact .emit_then fun s₂ _ => startBranches_costs _ _ _
    · rw [hcost, ht]
      exact .emit_then fun s₁ _ => fail_costs _ _ _

theorem enter_costs (hb : c.fl.Basic) (id : String) : Costs (enter c id) s (enterCost c.fl id) := by
  refine .read ?_
  cases c.fl.maxStepsOrDefault - s.steps with
  | zero => exact enterStep_costs hb id s
  | succ f => exact enterStep_costs hb id s

end

/-! ## What settling leaves open -/

/-- No task and no fan-out more, and every fan-out with its join. -/
structure Work.Narrower (w w' : Work) : Prop where
  tasks : ∀ k, k ∈ w'.tasks → k ∈ w.tasks
  fans : ∀ (fan : String) (f' : Fan), w'.fans[fan]? = some f' → ∃ f, w.fans[fan]? = some f ∧ f.join = f'.join
  maps : ∀ k, k ∈ w'.maps → k ∈ w.maps
  awaits : ∀ k, k ∈ w'.awaits → k ∈ w.awaits

namespace Work

variable {w : Work} {key owner node : String}

theorem Narrower.refl (w : Work) : w.Narrower w := ⟨fun _ h => h, fun _ f' h => ⟨f', h, rfl⟩, fun _ h => h, fun _ h => h⟩

theorem settleFans_join {o : BranchStatus} (fan : String) (f' : Fan) (h : (w.settleFans owner node o)[fan]? = some f') :
    ∃ f, w.fans[fan]? = some f ∧ f.join = f'.join := by
  unfold settleFans at h
  split at h
  · rename_i f hf
    rcases get_of_insert h with ⟨rfl, rfl⟩ | ⟨-, h⟩
    · exact ⟨f, hf, rfl⟩
    · exact ⟨f', h, rfl⟩
  · exact ⟨f', h, rfl⟩

theorem settle_narrower (key : String) (o : BranchStatus) : w.Narrower (w.settle key o) := by
  unfold settle
  split
  · exact .refl w
  · exact ⟨fun k hk => (Std.ExtTreeMap.mem_erase.1 hk).2, settleFans_join, fun _ h => h, fun _ h => h⟩

theorem mem_insert_old {V : Type} {m : SMap V} {k : String} {v v' : V} (h : m[k]? = some v) {a : String}
    (ha : a ∈ m.insert k v') : a ∈ m := by
  rcases Std.ExtTreeMap.mem_insert.1 ha with he | he
  · rw [← Std.LawfulEqCmp.compare_eq_iff_eq.1 he]
    exact mem_of_get h
  · exact he

theorem finishTask_narrower (key : String) : w.Narrower (w.finishTask key) := by
  unfold finishTask
  split
  · exact .refl w
  · rename_i t _
    obtain ⟨ht, hf, hm, ha⟩ := settle_narrower (w := { w with maps := w.countDone t.owner t.node }) key .completed
    refine ⟨ht, hf, fun k hk => ?_, ha⟩
    have hk := hm k hk
    simp only [countDone] at hk
    split at hk
    · split at hk
      · exact mem_insert_old ‹_› hk
      · exact hk
    · exact hk

theorem setStatus_narrower (key : String) (f : Task → Task) : w.Narrower (w.setStatus key f) := by
  unfold setStatus
  split
  · exact .refl w
  · rename_i t ht
    exact ⟨fun k hk => mem_insert_old ht hk, fun _ f' h => ⟨f', h, rfl⟩, fun _ h => h, fun _ h => h⟩

theorem finishChild_narrower (d : Event.ChildDone) : w.Narrower (w.finishChild d) := by
  simp only [finishChild, settleChild]
  split
  · exact ⟨fun _ h => h, fun _ f' h => ⟨f', h, rfl⟩, fun _ h => h, fun _ h => h⟩
  · split
    · rename_i c _ _ m hm
      split at hm
      · split
        · exact ⟨fun _ h => h, fun _ f' h => ⟨f', h, rfl⟩, fun _ h => mem_insert_old hm h, fun _ h => h⟩
        · exact ⟨fun _ h => h, fun _ f' h => ⟨f', h, rfl⟩, fun _ h => h, fun _ h => h⟩
      · cases hm
    · exact ⟨fun _ h => h, settleFans_join, fun _ h => h, fun _ h => h⟩

end Work

/-- Answers, timers that fire and accepted signals. -/
def Payload.arrives : Payload → Bool
  | .nodeDone _ | .nodeFail _ | .childDone _ | .fired _ | .signal _ => true
  | _ => false

theorem Work.step_narrower {w : Work} {p : Payload} (hp : p.arrives = true) : w.Narrower (w.step p) := by
  cases p with
  | nodeDone d => exact finishTask_narrower _
  | nodeFail d =>
    simp only [step]
    split
    · exact setStatus_narrower _ _
    · exact settle_narrower _ _
  | childDone d => exact finishChild_narrower d
  | fired d => exact ⟨fun _ h => h, fun _ f' h => ⟨f', h, rfl⟩, fun _ h => h, fun _ h => h⟩
  | signal d => exact ⟨fun _ h => h, fun _ f' h => ⟨f', h, rfl⟩, fun _ h => h, fun _ h => h⟩
  | _ => cases hp

/-- Neither a map nor an await is open, and closing the open fan-out fits. -/
structure Slim (fl : Flow) (s : State) : Prop where
  maps : ∀ k, k ∉ s.work.maps
  awaits : ∀ k, k ∉ s.awaits
  fans : ∀ (fan : String) (f : Fan) (jn : Node), s.fans[fan]? = some f → fl.node f.join = some jn →
    ∃ bs : List String, (∀ k, k ∈ s.tasks → k ∈ bs) ∧ bs.length + joinCost fl jn + 4 ≤ maxEvents

section
variable {c : Ctx} {s s' : State}

theorem Slim.arrives {p : Payload} (h : Slim c.fl s) (hp : p.arrives = true) (ha : c.apply s (c.event p s) = .ok s') :
    Slim c.fl s' := by
  have hn : s.work.Narrower s'.work := State.apply_work ha ▸ Work.step_narrower hp
  refine ⟨fun k hk => h.maps k (hn.maps k hk), fun k hk => h.awaits k (hn.awaits k hk), fun fan f' jn hf hj => ?_⟩
  obtain ⟨f, hget, hjoin⟩ := hn.fans fan f' hf
  obtain ⟨bs, hbs, hle⟩ := h.fans fan f jn hget (hjoin ▸ hj)
  exact ⟨bs, fun k hk => hbs k (hn.tasks k hk), hle⟩

theorem Slim.map_none (h : Slim c.fl s) (k : String) : s.maps[k]? = none := by
  by_contra hsome
  obtain ⟨m, hm⟩ := Option.ne_none_iff_exists'.1 hsome
  refine h.maps k ?_
  show k ∈ s.maps.map fun _ m => m.work
  exact Std.ExtTreeMap.mem_map.2 (mem_of_get hm)

/-! ## Settling -/

/-- Entering a fan-out of the most branches, each a task with a timer. -/
def widest : Nat := 2 + 3 * maxBranches

theorem attemptCost_le (n : Node) : attemptCost n ≤ 2 := by
  unfold attemptCost
  split <;> decide

variable (hb : c.fl.Basic) (hw : ∀ id, enterCost c.fl id ≤ widest)
include hb

theorem route_costs (target : String) : Costs (if target = "" then complete0 c else enter c target) s (routeCost c.fl target) := by
  unfold routeCost
  by_cases ht : target = ""
  · simp only [ht, if_true]
    exact complete0_costs
  · simp only [ht, if_false]
    exact enter_costs hb target

theorem advance_costs (n : Node) : Costs (advance c (enter c) n "") s (routeCost c.fl n.next) := by
  unfold advance
  simp only [if_true]
  exact route_costs hb n.next

omit hb in
theorem cancelTasks_costs (owner reason : String) : ∀ (keys : List String) (s : State),
    Costs (cancelTasks c owner reason keys) s keys.length
  | [], _ => .pure _ _
  | key :: keys, s => by
    refine .read ?_
    split
    · exact .throw _ _
    · split
      · exact .emit_then fun s' _ => cancelTasks_costs owner reason keys s'
      · exact (cancelTasks_costs owner reason keys s).mono (Nat.le_succ _)

theorem closeJoin_costs (fan : String) (join : Node) (succeeded failed : List String) (ok : Bool) :
    Costs (closeJoin c fan join succeeded failed ok) s (s.tasks.keys.length + (joinCost c.fl join + 1 + 1)) := by
  refine .read ((cancelTasks_costs _ _ _ s).bind fun _ s₁ => .read (.emit_then fun s₂ _ => .emit_then fun s₃ _ => ?_))
  have hpos : 1 ≤ joinCost c.fl join := by
    refine Nat.le_trans ?_ (Nat.le_max_left _ _)
    unfold routeCost
    split
    · exact Nat.le_refl _
    · exact enterCost_pos _ _
  refine .ite (fun _ => (advance_costs hb join).mono (Nat.le_max_left _ _)) fun _ => .ite (fun hf => ?_) fun _ => (fail_costs _ _ _).mono hpos
  refine (enter_costs hb join.onFailure).mono (Nat.le_trans ?_ (Nat.le_max_right _ _))
  simp only [routeCost, if_neg hf]
  exact Nat.le_refl _

theorem evalJoin_costs (h : Slim c.fl s) (fan : String) : Costs (evalJoin c fan) s (maxEvents - 2) := by
  refine .read ?_
  cases hf : s.fans[fan]? with
  | none => exact .throw _ _
  | some f =>
    simp only
    cases hj : c.fl.node f.join with
    | none => exact .throw _ _
    | some join =>
      simp only
      split
      · exact .pure _ _
      · obtain ⟨bs, hbs, hle⟩ := h.fans fan f join hf hj
        have hkeys : s.tasks.keys.length ≤ bs.length :=
          (Std.ExtTreeMap.nodup_keys.subperm fun k hk => hbs k (Std.ExtTreeMap.mem_keys.1 hk)).length_le
        exact (closeJoin_costs hb fan join _ _ _).mono (by omega)

include hw

theorem advance_widest (n : Node) (dyn : String) : Costs (advance c (enter c) n dyn) s widest := by
  unfold advance
  simp only
  by_cases hd : (if dyn = "" then n.next else dyn) = ""
  · rw [if_pos hd]
    exact complete0_costs.mono (by decide)
  · rw [if_neg hd]
    exact (enter_costs hb _).mono (hw _)

variable (h : Slim c.fl s)

include h

theorem afterSettle_costs (t : Task) (n : Node) (dyn : String) : Costs (afterSettle c t n dyn) s (maxEvents - 2) := by
  refine .read (.ite (fun _ => .pure _ _) fun _ => .ite (fun _ => evalJoin_costs hb h _) fun _ => .ite (fun hm => ?_) fun _ => ?_)
  · rw [h.map_none] at hm
    exact absurd hm.1 (by simp)
  · exact (advance_widest hb hw n dyn).mono (by decide)

theorem taskFailed_costs (t : Task) (msg : String) (retryable : Bool) (reason : String) (usage : SMap Rat) :
    Costs (taskFailed c t msg retryable reason usage) s (maxEvents - 2 + 1) := by
  refine .nodeOf_then fun n hn => .read (.emit_then fun s' ha => ?_)
  have hs : Slim c.fl s' := h.arrives rfl ha
  have hone : 1 ≤ maxEvents - 2 := by decide
  split
  · exact (fail_costs _ _ _).mono hone
  · refine .ite (fun _ => ?_) fun _ => .read (.ite (fun _ => evalJoin_costs hb hs _) fun _ => .ite (fun _ => ?_) fun _ => (fail_costs _ _ _).mono hone)
    · exact .ite (fun _ => (schedule_costs _ _ _ _ _ _ _ _).mono ((attemptCost_le n).trans (by decide))) fun _ => (timerAt_costs _ _ _ _ _ _).mono hone
    · refine .ite (fun hm => ?_) fun _ => (enter_costs hb _).mono ((hw _).trans (by decide))
      rw [hs.map_none] at hm
      exact absurd hm.1 (by simp)

theorem complete_costs (p : Cmd.CompleteData) : Costs (complete c p) s (maxEvents - 2 + 1) := by
  refine .read ?_
  split
  · exact .pure _ _
  · refine .nodeOf_then fun n hn => ?_
    generalize (if isNull p.output = true then none else p.output) = output
    simp only
    split
    · exact taskFailed_costs hb hw h _ _ _ _ _
    · refine .emit_then fun s' ha => .read ?_
      split
      · exact (fail_costs _ _ _).mono (by decide)
      · exact afterSettle_costs hb hw (h.arrives rfl ha) _ _ _

theorem timer_costs (p : Cmd.TimerData) : Costs (timer c p) s (maxEvents - 2 + 1 + 1) := by
  refine .read ?_
  split
  · exact .pure _ _
  · rename_i tm _
    refine .emit_then fun s' ha => .read ?_
    have hs : Slim c.fl s' := h.arrives rfl ha
    split
    · split
      · exact .pure _ _
      · refine .ite (fun _ => .nodeOf_then fun n _ => ?_) fun _ => .pure _ _
        exact (schedule_costs _ _ _ _ _ _ _ _).mono ((attemptCost_le n).trans (by decide))
    · split
      · exact .pure _ _
      · exact taskFailed_costs hb hw hs _ _ _ _ _
    · refine .read ?_
      cases hget : s'.awaits[tm.node]? with
      | none => exact .pure _ _
      | some a => exact absurd (mem_of_get hget) (hs.awaits _)

theorem childDone_costs (p : Cmd.ChildDoneData) : Costs (childDone c p) s (maxEvents - 2 + 1) := by
  have hwide : widest ≤ maxEvents - 2 := by decide
  refine .read ?_
  split
  · exact .pure _ _
  · refine .emit_then fun s' ha => .read ?_
    have hs : Slim c.fl s' := h.arrives rfl ha
    split
    · exact (fail_costs _ _ _).mono (by decide)
    · refine .nodeOf_then fun n _ => ?_
      simp only
      refine .ite (fun _ => evalJoin_costs hb hs _) fun _ => .ite (fun hm => ?_) fun _ => .ite (fun _ => ?_) fun _ => .ite (fun _ => ?_) fun _ => ?_
      · rw [hs.map_none] at hm
        exact absurd hm.1 (by simp)
      · exact (advance_widest hb hw n "").mono hwide
      · exact (enter_costs hb _).mono ((hw _).trans hwide)
      · exact (fail_costs _ _ _).mono (by decide)

omit h

theorem start_costs (p : Cmd.StartData) : Costs (start c p) s (widest + 1) := by
  refine .read (.ite (fun _ => ?_) fun _ => ?_)
  · split
    · exact .pure _ _
    · exact .throw _ _
  · generalize (if isNull p.input = true then Json.obj [] else p.input.encoded) = input
    simp only
    refine .ite (fun _ => ?_) fun _ => .throw _ _
    split
    · exact .throw _ _
    · exact .emit_then fun _ _ => (enter_costs hb _).mono (hw _)

/-- Every command on an execution that is slim. -/
theorem decideData_costs (h : Slim c.fl s) (d : CmdData) : Costs (decideData c d) s maxEvents := by
  cases d with
  | start p => exact (start_costs hb hw p).mono (by decide)
  | complete p => exact (complete_costs hb hw h p).mono (by decide)
  | fail p =>
    refine .read ?_
    split
    · exact .pure _ _
    · exact (taskFailed_costs hb hw h _ _ _ _ _).mono (by decide)
  | interrupt p =>
    refine Costs.mono (k := 2) (.read ?_) (by decide)
    split
    · exact .pure _ _
    · refine .emit_then fun s' _ => .read ?_
      split
      · exact fail_costs _ _ _
      · exact .pure _ _
  | resume p =>
    refine .read ?_
    split
    · exact .pure _ _
    · exact .nodeOf_then fun n _ => (schedule_costs _ _ _ _ _ _ _ _).mono ((attemptCost_le n).trans (by decide))
  | signal p =>
    simp only [decideData, signal]
    split
    · exact .throw _ _
    · refine .read (.ite (fun _ => .pure _ _) fun _ => Costs.mono (k := 0 + 1) (.emit_then fun s' ha => .read ?_) (by decide))
      have hs : Slim c.fl s' := h.arrives rfl ha
      split
      · exact .pure _ _
      · rename_i node a hfind
        have hget := Std.ExtTreeMap.mem_toList_iff_getElem?_eq_some.1 (List.mem_of_find?_eq_some hfind)
        exact absurd (mem_of_get hget) (hs.awaits node)
  | cancel p => exact Costs.mono (.read (Yields.getAux fun _ => Costs.emit)) (by decide)
  | timer p => exact timer_costs hb hw h p
  | childDone p => exact (childDone_costs hb hw h p).mono (by decide)
  | update writes =>
    refine .read (.ite (fun _ => .throw _ _) fun _ => .ite (fun _ => .pure _ _) fun _ => ?_)
    split
    · exact .throw _ _
    · exact Costs.mono .emit (by decide)
  | undecodable t e => exact .throw _ _
  | operational t => exact .throw _ _

end

/-! ## Executions -/

variable {n : Node} {now : Time} {b id letter : String} {l : Char}

theorem branches_le {x : Ext} {fl : Flow} (hv : validate x fl = []) (hn : n ∈ fl.nodes) (ht : n.type = .fanout) :
    n.branches.length ≤ maxBranches := by
  obtain ⟨-, hty, -, -⟩ := nodeProblems_nil ((local_of_problems (local_of_validate hv)).node n hn)
  simp only [typeProblems, ht, fanoutProblems, List.append_eq_nil_iff] at hty
  have hlen := hty.1.1
  split at hlen
  · cases hlen
  · exact Nat.not_lt.1 (by simpa [problemIf_nil] using hlen)

theorem enterCost_le {x : Ext} {fl : Flow} (hv : validate x fl = []) (id : String) : enterCost fl id ≤ widest := by
  have hbranch : ∀ b, branchCost fl b ≤ 3 := by
    intro b
    unfold branchCost
    split
    · decide
    · split
      · decide
      · rename_i n _ _
        have := attemptCost_le n
        omega
  unfold enterCost
  split
  · decide
  · rename_i n hn
    split
    · have := attemptCost_le n
      unfold widest maxBranches
      omega
    · rename_i ht
      have hsum : (n.branches.map (branchCost fl)).sum ≤ n.branches.length * 3 := by
        have := List.sum_le_card_nsmul (n.branches.map (branchCost fl)) 3 (by simpa using fun b _ => hbranch b)
        simpa using this
      have hlen := branches_le hv (Flow.node_mem hn) ht
      unfold widest
      omega
    · decide

/-- Neither a map nor an await is open, what is in flight are branches `bs`, and closing the open fan-out fits. -/
structure Work.Flat (fl : Flow) (w : Work) (bs : List String) : Prop where
  maps : ∀ k, k ∉ w.maps
  awaits : ∀ k, k ∉ w.awaits
  tasks : ∀ k, k ∈ w.tasks → k ∈ bs
  children : ∀ k, k ∈ w.children → k ∈ bs
  size : bs.length ≤ maxBranches
  fans : fl.Narrow → ∀ (fan : String) (f : Fan) (jn : Node), w.fans[fan]? = some f → fl.node f.join = some jn →
    bs.length + joinCost fl jn + 4 ≤ maxEvents

section
variable {x : Ext} {fl : Flow} {s : State} {log : List (List Event)}

theorem Open.Idle.flat {w : Work} (h : w.Idle) : w.Flat fl [] where
  maps k := by rw [h.maps]; exact Std.ExtTreeMap.not_mem_empty
  awaits k := by rw [h.awaits]; exact Std.ExtTreeMap.not_mem_empty
  tasks k hk := by rw [h.tasks] at hk; exact absurd hk Std.ExtTreeMap.not_mem_empty
  children k hk := by rw [h.children] at hk; exact absurd hk Std.ExtTreeMap.not_mem_empty
  size := Nat.zero_le _
  fans _ fan f jn hf _ := by rw [h.fans, get_empty] at hf; cases hf

theorem Progress.flat (hv : validate x fl = []) (hb : fl.Basic) {w : Work} (h : Progress fl w) : ∃ bs, w.Flat fl bs := by
  have hnone : ∀ {V : Type} {m : SMap V}, m = ∅ → ∀ k, k ∉ m := fun he k => by rw [he]; exact Std.ExtTreeMap.not_mem_empty
  have hnofan : w.fans = ∅ → ∀ (fan : String) (f : Fan), w.fans[fan]? ≠ some f := fun he fan f hf => by
    rw [he, get_empty] at hf
    cases hf
  cases h with
  | @task k t h =>
    refine ⟨[k], hnone h.rest.maps, hnone h.rest.awaits, fun a ha => ?_, fun a ha => absurd ha (hnone h.rest.children a),
      by simp [maxBranches],
      fun _ fan f jn hf _ => absurd hf (hnofan h.rest.fans fan f)⟩
    rw [h.tasks, mem_single] at ha
    simp [ha]
  | await h _ =>
    obtain ⟨nd, hn, ht, -⟩ := h.type
    have := hb nd (Flow.node_mem hn)
    simp [ht] at this
  | @child k ch h =>
    refine ⟨[k], hnone h.rest.maps, hnone h.rest.awaits, fun a ha => absurd ha (hnone h.rest.tasks a), fun a ha => ?_,
      by simp [maxBranches],
      fun _ fan f jn hf _ => absurd hf (hnofan h.rest.fans fan f)⟩
    rw [h.children, mem_single] at ha
    simp [ha]
  | @fan fan f h _ =>
    obtain ⟨fn, hn, ht, hbr⟩ := h.type
    refine ⟨fn.branches, hnone h.rest.maps, hnone h.rest.awaits, fun a ha => ?_, fun a ha => ?_,
      branches_le hv (Flow.node_mem hn) ht, fun hnarrow fan' f' jn hf hj => ?_⟩
    · obtain ⟨t, hget⟩ := get_of_mem ha
      exact (hbr a).1 (mem_of_get (h.task hget).2.2.1)
    · obtain ⟨ch, hget⟩ := get_of_mem ha
      exact (hbr a).1 (mem_of_get (h.child hget).2.2.1)
    · rw [h.fans] at hf
      obtain ⟨rfl, rfl⟩ := get_of_single hf
      exact hnarrow _ fn _ jn hn ht h.join hj
  | map h _ =>
    obtain ⟨nd, hn, ht⟩ := h.type
    have := hb nd (Flow.node_mem hn)
    simp [ht] at this

theorem Settled.flat (hv : validate x fl = []) (hb : fl.Basic) {base : Nat} (h : Settled fl base s) : ∃ bs, s.work.Flat fl bs := by
  rcases h with he | ⟨-, hr⟩
  · exact ⟨[], he.idle.flat⟩
  · exact hr.progress.flat hv hb

theorem Reachable.flat (hv : validate x fl = []) (hb : fl.Basic) (h : Reachable x fl s log) : ∃ bs, s.work.Flat fl bs := by
  cases h.tracked (wellFormed_of_validate hv) with
  | absent _ ha _ => exact ⟨[], Open.Idle.flat (by rw [ha.work]; exact Work.none_idle)⟩
  | present hs _ _ => exact hs.flat hv hb

theorem Work.Flat.slim {bs : List String} (h : s.work.Flat fl bs) (hnarrow : fl.Narrow) : Slim fl s :=
  ⟨h.maps, h.awaits, fun fan f jn hf hj => ⟨bs, h.tasks, h.fans hnarrow fan f jn hf hj⟩⟩

end

/-! ## Forks -/

section
variable {c : Ctx} {s : State}

/-- Nothing but tasks and timers changed. -/
structure SameKin (s s' : State) : Prop where
  awaits : s'.awaits = s.awaits
  children : s'.children = s.children

theorem SameKin.trans {s' s'' : State} (h : SameKin s s') (h' : SameKin s' s'') : SameKin s s'' :=
  ⟨h'.awaits.trans h.awaits, h'.children.trans h.children⟩

def Dispatches (m : DecM Unit) (s : State) (k : Nat) : Prop :=
  Yields (fun _ => True) m s fun _ s' evs => evs.length ≤ k ∧ SameKin s s'

theorem Dispatches.bind {m m' : DecM Unit} {k l : Nat} (hm : Dispatches m s k) (hm' : ∀ s', Dispatches m' s' l) :
    Dispatches (do m; m') s (k + l) :=
  Yields.bind hm fun _ s' evs ⟨hl, hk⟩ => Yields.mono (hm' s') fun _ s'' evs' ⟨hl', hk'⟩ => by
    rw [List.length_append]
    exact ⟨Nat.add_le_add hl hl', hk.trans hk'⟩

theorem schedule_dispatches (n : Node) (key owner : String) (index : Nat) (item : Raw) (rs : Resumption) (gen attempt : Nat) :
    Dispatches (schedule c n key owner index item rs gen attempt) s 2 := by
  have hemit : ∀ {p : Payload} {s : State}, (∀ w : Work, (w.step p).awaits = w.awaits ∧ (w.step p).children = w.children) →
      Dispatches (emit c p) s 1 := fun hp => Yields.emit (fun s' ha => ⟨Nat.le_refl _, by
        have hw := State.apply_work ha
        exact ⟨(congrArg (fun w : Work => w.awaits) hw).trans (hp _).1,
          (congrArg (fun w : Work => w.children) hw).trans (hp _).2⟩⟩) fun _ _ => trivial
  refine Yields.getSt (Dispatches.bind (k := 1) (l := 1) (hemit fun _ => ⟨rfl, rfl⟩) fun s' => ?_)
  split
  · exact Yields.getSt (hemit fun _ => ⟨rfl, rfl⟩)
  · exact Yields.pure ⟨Nat.zero_le _, rfl, rfl⟩

theorem rekickTasks_dispatches : ∀ (keys : List String) (s : State), Dispatches (rekickTasks c keys) s (2 * keys.length)
  | [], _ => Yields.pure ⟨Nat.le_refl _, rfl, rfl⟩
  | key :: keys, s => by
    refine Yields.getSt ?_
    split
    · exact Yields.throw trivial
    · rename_i t _
      rw [List.length_cons, Nat.mul_succ, Nat.add_comm]
      split
      · exact Yields.mono (rekickTasks_dispatches keys s) fun _ _ _ ⟨hl, hk⟩ => ⟨by omega, hk⟩
      · exact yields_nodeOf fun n _ => Dispatches.bind (schedule_dispatches _ _ _ _ _ _ _ _) fun s' => rekickTasks_dispatches keys s'

theorem rekickChildren_costs : ∀ (keys : List String) (s : State), Costs (rekickChildren c keys) s keys.length
  | [], _ => .pure _ _
  | key :: keys, s => by
    refine .read (.ite (fun _ => .pure _ _) fun _ => ?_)
    split
    · exact .throw _ _
    · rw [List.length_cons, Nat.add_comm]
      exact .nodeOf_then fun n _ => (startChild_costs _ _ _ _ _).bind fun _ s' => rekickChildren_costs keys s'

theorem rekick_costs {bs : List String} (hf : s.work.Flat c.fl bs) : Costs (rekick c) s (3 * maxBranches) := by
  have hbound : ∀ {V : Type} {m : SMap V}, (∀ k, k ∈ m → k ∈ bs) → m.keys.length ≤ maxBranches := fun h =>
    ((Std.ExtTreeMap.nodup_keys.subperm fun k hk => h k (Std.ExtTreeMap.mem_keys.1 hk)).length_le).trans hf.size
  have htasks : s.tasks.keys.length ≤ maxBranches := hbound hf.tasks
  refine Yields.getSt (Yields.bind (rekickTasks_dispatches _ s) fun _ s₁ evs ⟨hl, hk⟩ => Yields.getSt ?_)
  have hawaits : rekickAwaits c s₁.awaits.keys = pure () := by
    have hnil : s₁.awaits.keys = [] := by
      rw [hk.awaits, List.eq_nil_iff_forall_not_mem]
      exact fun k hmem => hf.awaits k (Std.ExtTreeMap.mem_keys.1 hmem)
    rw [hnil]
    rfl
  have hchildren : s₁.children.keys.length ≤ maxBranches := by
    rw [hk.children]
    exact hbound hf.children
  rw [hawaits, pure_bind]
  refine Yields.getSt (Yields.setAux (Yields.mono (rekickChildren_costs _ s₁) fun _ _ evs' hl' => ?_))
  rw [List.length_append]
  omega

theorem forkProg_costs {src : State} {bs : List String} (hf : src.work.Flat c.fl bs) (source : String) (seq : Nat)
    (writes : SMap Json) : Costs (forkProg c src source seq writes) s (3 * maxBranches + 1 + 1) := by
  refine .read (.emit_then fun s₁ ha => .read ?_)
  have hwork : s₁.work = { src.work with timers := ∅ } := by
    have hw := State.apply_work ha
    have hstep : s.work.step (.forked { execID := s.execID, source, seq, state := src.marshal }) = { src.work with timers := ∅ } := by
      show ({ src.encoded.work with timers := ∅ } : Work) = _
      rw [State.work_encoded]
    exact hw.trans hstep
  have hf₁ : s₁.work.Flat c.fl bs := by
    rw [hwork]
    exact ⟨hf.maps, hf.awaits, hf.tasks, hf.children, hf.size, hf.fans⟩
  refine .ite (fun _ => .ite (fun _ => .pure _ _) fun _ => (rekick_costs hf₁).mono (Nat.le_succ _)) fun _ =>
    .ite (fun _ => .throw _ _) fun _ => ?_
  split
  · exact .throw _ _
  · refine .emit_then fun s₂ ha₂ => ?_
    have hsame : s₂.work = s₁.work := State.apply_work ha₂
    exact rekick_costs (by rw [hsame]; exact hf₁)

end

theorem Ask.decide_fits {x : Ext} {fl : Flow} {s : State} {log : List (List Event)} (hv : validate x fl = []) (hb : fl.Basic)
    (hnarrow : fl.Narrow) (h : Reachable x fl s log) {a : Ask} (hsrc : (Request.ask a).Sourced x fl) {evs : List Event}
    (hok : (a.decide x fl s now).result = .ok evs) : evs.length ≤ maxEvents := by
  cases a with
  | command cmd =>
    obtain ⟨bs, hflat⟩ := h.flat hv hb
    have hok : (Packtrail.decide x fl s cmd now).result = .ok evs := hok
    rcases decide_cases x fl s cmd now with he | he | ⟨e, he⟩
    · rw [he] at hok
      exact Yields.decision (decideData_costs (c := ⟨x, fl, now, cmd.id⟩) hb (enterCost_le hv) (hflat.slim hnarrow) cmd.data) hok
    · rw [he] at hok
      cases hok
      exact Nat.zero_le _
    · rw [he] at hok
      cases hok
  | fork src source seq cmdID writes =>
    have hok : (decideFork x fl s src source seq cmdID writes now).result = .ok evs := hok
    obtain ⟨-, slog, hreach⟩ := hsrc src rfl
    obtain ⟨bs, hflat⟩ := hreach.flat hv hb
    unfold decideFork at hok
    split at hok
    · cases hok
      exact Nat.zero_le _
    · exact Nat.le_trans (Yields.decision (forkProg_costs (c := ⟨x, fl, now, cmdID⟩) hflat source seq writes) hok) (by decide)

/-- `fitDecision` (`engine.go:400-418`) finds the decision too large and replaces it. -/
def Engine.Replaces (c : Setup) (e : Engine) (σ : Store) (a : Ask) (now : Time) (trace : String) : Prop :=
  ∃ expected decided evs, (e.apply c σ a now trace).stage = .tooLarge expected a decided trace evs

theorem Engine.not_replaces {c : Setup} {e : Engine} {σ : Store} {s : State} {a : Ask} (hidle : e.stage = .idle)
    (hload : e.load c σ = .ok s) (hfits : ∀ evs, (a.decide c.x c.fl s now).result = .ok evs → evs.length ≤ c.maxEvents)
    (trace : String) : ¬e.Replaces c σ a now trace := by
  rintro ⟨expected, decided, evs, hstage⟩
  have hdecide : ∀ o, c.decide σ s a now = .ok o → ∀ evs, o.result = .ok evs → evs.length ≤ c.maxEvents := by
    intro o ho evs hres
    unfold Setup.decide at ho
    split at ho
    · split at ho
      · split at ho
        · cases ho
        · cases ho
          cases hj : checkJoin _ _ with
          | error e => rw [hj] at hres; cases hres
          | ok u => rw [hj] at hres; cases hres; exact Nat.zero_le _
      · cases ho; exact hfits evs hres
    · cases ho; exact hfits evs hres
  unfold Engine.apply at hstage
  rw [hload] at hstage
  simp only at hstage
  split at hstage
  · cases hstage
  · rename_i o ho
    split at hstage
    · cases hstage
    · rw [hidle] at hstage; cases hstage
    · rename_i ev rest hres
      rw [if_neg (Nat.not_lt.2 (hdecide o ho _ hres))] at hstage
      cases hstage

theorem Engine.replaces {c : Setup} {e : Engine} {σ : Store} {s : State} {cmd : Command} {evs : List Event}
    (hload : e.load c σ = .ok s) (hcmd : cmd.data.isStart = false) (hok : (Packtrail.decide c.x c.fl s cmd now).result = .ok evs)
    (hlen : c.maxEvents < evs.length) (trace : String) : e.Replaces c σ (.command cmd) now trace := by
  have hdecide : c.decide σ s (.command cmd) now = .ok (Packtrail.decide c.x c.fl s cmd now) := by
    obtain ⟨id, data⟩ := cmd
    cases data with
    | start p => cases hcmd
    | _ => rfl
  cases evs with
  | nil => cases hlen
  | cons ev rest =>
    refine ⟨s.lastSeq, now, ev :: rest, ?_⟩
    unfold Engine.apply
    simp only [hload, hdecide, hok, if_pos hlen]

/-- **In a narrow flow every decision fits**, so an engine never replaces one. -/
theorem narrow_decisions_fit {c : Setup} {s : State} {log : List (List Event)} (hmax : c.maxEvents = maxEvents)
    (hv : validate c.x c.fl = []) (hb : c.fl.Basic) (hnarrow : c.fl.Narrow) (h : Reachable c.x c.fl s log) {a : Ask}
    (hsrc : (Request.ask a).Sourced c.x c.fl) (now : Time) :
    (∀ evs, (a.decide c.x c.fl s now).result = .ok evs → evs.length ≤ maxEvents) ∧
      ∀ (e : Engine) (σ : Store) (trace : String), e.stage = .idle → e.load c σ = .ok s → ¬e.Replaces c σ a now trace := by
  have hfits : ∀ evs, (a.decide c.x c.fl s now).result = .ok evs → evs.length ≤ maxEvents := fun evs =>
    Ask.decide_fits hv hb hnarrow h hsrc
  exact ⟨hfits, fun e σ trace hidle hload => Engine.not_replaces hidle hload (hmax ▸ hfits) trace⟩

theorem sidesReview_narrow : sidesReview.Basic ∧ sidesReview.Narrow := by
  have hmem : ∀ n, n ∈ sidesReview.nodes → (n.type = .task ∨ n.type = .subflow ∨ n.type = .fanout ∨ n.type = .join) ∧
      n.branches.length ≤ 2 ∧ joinCost sidesReview n ≤ 2 := by
    intro n hn
    simp only [sidesReview, List.mem_cons, List.not_mem_nil, or_false] at hn
    rcases hn with rfl | rfl | rfl | rfl <;> decide +kernel
  refine ⟨fun n hn => (hmem n hn).1, fun fan fn join jn hfan _ _ hjoin => ?_⟩
  have hbranches := (hmem fn (Flow.node_mem hfan)).2.1
  have hcost := (hmem jn (Flow.node_mem hjoin)).2.2
  unfold maxEvents
  omega

theorem sidesReview_fits : ∃ evs, (Packtrail.decide plainExt sidesReview (State.new "r1") startReview 1).result = .ok evs ∧
    evs.length = 7 ∧ evs.length ≤ maxEvents ∧
    ¬({ } : Engine).Replaces ⟨plainExt, sidesReview, "r1", maxEvents, 1⟩ {} (.command startReview) 1 "" := by
  have hfit := narrow_decisions_fit (c := ⟨plainExt, sidesReview, "r1", maxEvents, 1⟩) rfl (by decide +kernel) sidesReview_narrow.1
    sidesReview_narrow.2 (.new "r1") (Ask.sourced_command plainExt sidesReview startReview) 1
  have hlen : (Packtrail.decide plainExt sidesReview (State.new "r1") startReview 1).result.toOption.map List.length = some 7 := by
    decide +kernel
  cases hres : (Packtrail.decide plainExt sidesReview (State.new "r1") startReview 1).result with
  | error e => rw [hres] at hlen; cases hlen
  | ok evs =>
    rw [hres] at hlen
    exact ⟨evs, rfl, Option.some.inj hlen, hfit.1 evs hres, hfit.2 {} {} "" rfl rfl⟩

/-! ## A join that leads to a fan-out

`Narrow` is enough, not necessary. Without it the limit can be exceeded: here is what a fan-out of tasks emits for certain,
and a flow of two such fan-outs that are as wide as they may be. -/

section
variable {c : Ctx} {s : State}

/-- A fresh attempt of branch `b`. -/
structure Task.Runs (t : Task) (fan b : String) : Prop where
  key : t.key = b
  owner : t.owner = fan
  node : t.node = b
  status : t.status = .scheduled

/-- `s'` is `s` with the branches `bs` of `fan` in flight and `entered` nodes more entered. -/
structure Branched (fan : String) (bs : List String) (entered : Nat) (s s' : State) : Prop where
  live : s'.Live
  task : ∀ b ∈ bs, ∃ t, s'.tasks[b]? = some t ∧ t.Runs fan b
  rest : ∀ k, k ∉ bs → s'.tasks[k]? = s.tasks[k]?
  steps : s'.steps = s.steps + entered
  fans : s'.fans = s.fans

/-- An event of an execution that goes on. -/
theorem emit_live {p : Payload} (hl : s.Live) (hp : p.plain = true) :
    Yields (fun e => ¬e.benign) (emit c p) s fun _ s' evs => evs.length = 1 ∧ s'.Live ∧ s'.work = s.work.step p :=
  Yields.emit (fun _ ha => ⟨rfl, (State.apply_plain hp ha).2 hl, State.apply_work ha⟩) fun _ ha => State.apply_error ha

theorem schedule_branches (hl : s.Live) (n : Node) (fan : String) :
    Yields (fun e => ¬e.benign) (schedule c n n.id fan 0 none {} 0 1) s fun _ s' evs =>
      attemptCost n ≤ evs.length ∧ Branched fan [n.id] 0 s s' := by
  refine Yields.getSt (Yields.bind (emit_live hl rfl) fun _ s₁ evs ⟨hlen, hl₁, hw₁⟩ => ?_)
  have htasks : s₁.tasks = _ := congrArg (fun w : Work => w.tasks) hw₁
  have hsteps : s₁.steps = s.steps := congrArg Work.steps hw₁
  have hfans : s₁.fans = s.fans := congrArg (fun w : Work => w.fans) hw₁
  have hbranched : ∀ s₂ : State, s₂.Live → s₂.tasks = s₁.tasks → s₂.steps = s₁.steps → s₂.fans = s₁.fans →
      Branched fan [n.id] 0 s s₂ := by
    intro s₂ hl₂ ht₂ hs₂ hf₂
    refine ⟨hl₂, fun b hb => ?_, fun k hk => ?_, by simp [hs₂, hsteps], hf₂.trans hfans⟩
    · rw [List.mem_singleton.1 hb, ht₂, htasks]
      exact ⟨_, get_insert.trans (if_pos rfl), rfl, rfl, rfl, rfl⟩
    · rw [ht₂, htasks]
      exact get_insert.trans (if_neg fun he => hk (by simp [← he]))
  by_cases ht : 0 < n.timeout
  · simp only [ht, if_true]
    refine Yields.getSt (Yields.mono (emit_live hl₁ rfl) fun _ s₂ evs' ⟨hlen', hl₂, hw₂⟩ => ⟨?_, ?_⟩)
    · simp only [attemptCost, ht, if_true, List.length_append]
      omega
    · exact hbranched s₂ hl₂ (congrArg (fun w : Work => w.tasks) hw₂) (congrArg Work.steps hw₂) (congrArg (fun w : Work => w.fans) hw₂)
  · simp only [ht, if_false]
    refine Yields.pure ⟨?_, hbranched s₁ hl₁ rfl rfl rfl⟩
    simp only [attemptCost, ht, if_false, List.append_nil]
    omega

theorem startBranches_branches (fan : String) : ∀ (bs : List String) {s : State}, s.Live → bs.Nodup →
    (∀ b ∈ bs, ∃ n, c.fl.node b = some n ∧ n.type = .task) →
    Yields (fun e => ¬e.benign) (startBranches c fan bs) s fun _ s' evs =>
      (bs.map (branchCost c.fl)).sum ≤ evs.length ∧ Branched fan bs bs.length s s'
  | [], s, hl, _, _ => Yields.pure ⟨Nat.le_refl _, hl, by simp, fun _ _ => rfl, rfl, rfl⟩
  | b :: bs, s, hl, hnd, hbs => by
    obtain ⟨n, hn, ht⟩ := hbs b List.mem_cons_self
    have hid : n.id = b := Flow.node_id hn
    obtain ⟨hnew, hrest⟩ := List.nodup_cons.1 hnd
    refine Yields.bind (emit_live hl rfl) fun _ s₁ evs₁ ⟨hlen₁, hl₁, hw₁⟩ => ?_
    simp only [hn, ht, reduceCtorEq, if_false]
    subst hid
    refine Yields.bind (schedule_branches hl₁ n fan) fun _ s₂ evs₂ ⟨hlen₂, h₂⟩ => Yields.getSt ?_
    simp only [h₂.live.unended, Bool.false_eq_true, if_false]
    refine Yields.mono (startBranches_branches fan bs h₂.live hrest fun b hb => hbs b (List.mem_cons_of_mem _ hb))
      fun _ s₃ evs₃ ⟨hlen₃, h₃⟩ => ⟨?_, h₃.live, fun b hb => ?_, fun k hk => ?_, ?_, ?_⟩
    · have hcost : branchCost c.fl n.id = 1 + attemptCost n := by simp [branchCost, hn, ht]
      simp only [List.map_cons, List.sum_cons, List.length_append, hcost]
      omega
    · rcases List.mem_cons.1 hb with rfl | hb
      · rw [h₃.rest _ hnew]
        exact h₂.task _ (by simp)
      · exact h₃.task b hb
    · simp only [List.mem_cons, not_or] at hk
      rw [h₃.rest k hk.2, h₂.rest k (by simpa using hk.1)]
      exact congrArg (·[k]?) (congrArg (fun w : Work => w.tasks) hw₁)
    · have hs₁ : s₁.steps = s.steps + 1 := congrArg Work.steps hw₁
      rw [h₃.steps, h₂.steps, hs₁, List.length_cons]
      omega
    · rw [h₃.fans, h₂.fans]
      exact congrArg (fun w : Work => w.fans) hw₁

/-- A fan-out of tasks that is entered within the limit. -/
theorem enter_branches {fan : String} {n : Node} (hn : c.fl.node fan = some n) (ht : n.type = .fanout) (hl : s.Live)
    (hsteps : s.steps < c.fl.maxStepsOrDefault) (hnd : n.branches.Nodup)
    (hbs : ∀ b ∈ n.branches, ∃ bn, c.fl.node b = some bn ∧ bn.type = .task) :
    Yields (fun e => ¬e.benign) (enter c fan) s fun _ s' evs =>
      enterCost c.fl fan ≤ evs.length ∧ s'.Live ∧ (∀ b ∈ n.branches, ∃ t, s'.tasks[b]? = some t ∧ t.Runs fan b) ∧
      (∀ k, k ∉ n.branches → s'.tasks[k]? = s.tasks[k]?) ∧ s'.steps = s.steps + 1 + n.branches.length ∧
      ∃ f, s'.fans[fan]? = some f ∧ f.join = (c.fl.joinOf fan).getD "" := by
  have hid : n.id = fan := Flow.node_id hn
  subst hid
  have hstep : ∀ k, Yields (fun e => ¬e.benign) (enterStep c k n.id) s fun _ s' evs =>
      enterCost c.fl n.id ≤ evs.length ∧ s'.Live ∧ (∀ b ∈ n.branches, ∃ t, s'.tasks[b]? = some t ∧ t.Runs n.id b) ∧
      (∀ k, k ∉ n.branches → s'.tasks[k]? = s.tasks[k]?) ∧ s'.steps = s.steps + 1 + n.branches.length ∧
      ∃ f, s'.fans[n.id]? = some f ∧ f.join = (c.fl.joinOf n.id).getD "" := by
    intro k
    refine Yields.getSt ?_
    simp only [hn, ht, if_neg (show ¬c.fl.maxStepsOrDefault < s.steps + 1 by omega)]
    refine Yields.bind (emit_live hl rfl) fun _ s₁ evs₁ ⟨hlen₁, hl₁, hw₁⟩ => ?_
    refine Yields.bind (emit_live hl₁ rfl) fun _ s₂ evs₂ ⟨hlen₂, hl₂, hw₂⟩ => ?_
    refine Yields.mono (startBranches_branches n.id n.branches hl₂ hnd hbs) fun _ s₃ evs₃ ⟨hlen₃, h₃⟩ => ⟨?_, h₃.live, h₃.task, ?_, ?_, ?_⟩
    · have hcost : enterCost c.fl n.id = 2 + (n.branches.map (branchCost c.fl)).sum := by simp [enterCost, hn, ht]
      rw [hcost, List.length_append, List.length_append]
      omega
    · intro k hk
      rw [h₃.rest k hk]
      have ht₂ : s₂.tasks = s₁.tasks := congrArg (fun w : Work => w.tasks) hw₂
      have ht₁ : s₁.tasks = s.tasks := congrArg (fun w : Work => w.tasks) hw₁
      rw [ht₂, ht₁]
    · have hs₂ : s₂.steps = s₁.steps := congrArg Work.steps hw₂
      have hs₁ : s₁.steps = s.steps + 1 := congrArg Work.steps hw₁
      rw [h₃.steps, hs₂, hs₁]
    · have hf₂ : s₂.fans = _ := congrArg (fun w : Work => w.fans) hw₂
      rw [h₃.fans, hf₂]
      exact ⟨_, get_insert.trans (if_pos rfl), rfl⟩
  refine Yields.getSt ?_
  cases c.fl.maxStepsOrDefault - s.steps with
  | zero => exact hstep _
  | succ f => exact hstep _

/-- Every task of the fan-out is cancelled. -/
theorem cancelTasks_cancels (owner reason : String) : ∀ (keys : List String) {s : State}, s.Live →
    (∀ (k : String) (t : Task), s.tasks[k]? = some t → t.owner = owner) →
    Yields (fun e => ¬e.benign) (cancelTasks c owner reason keys) s fun _ s' evs =>
      keys.length ≤ evs.length ∧ s'.Live ∧ s'.steps = s.steps
  | [], s, hl, _ => Yields.pure ⟨Nat.le_refl _, hl, rfl⟩
  | key :: keys, s, hl, hown => by
    refine Yields.getSt ?_
    cases ht : s.tasks[key]? with
    | none => exact Yields.throw id
    | some t =>
      simp only [hown key t ht, if_true]
      refine Yields.bind (emit_live hl rfl) fun _ s₁ evs₁ ⟨hlen₁, hl₁, hw₁⟩ => ?_
      have hwork : s₁.work = s.work.settle key .cancelled := hw₁
      have hown₁ : ∀ (k : String) (t : Task), s₁.tasks[k]? = some t → t.owner = owner := by
        intro k t' hget
        have htasks : s₁.tasks = (s.work.settle key .cancelled).tasks := congrArg (fun w : Work => w.tasks) hwork
        have hsettle : (s.work.settle key .cancelled).tasks = s.tasks.erase key := by
          unfold Work.settle
          rw [show s.work.tasks[key]? = some t from ht]
          rfl
        rw [htasks, hsettle] at hget
        exact hown k t' (get_of_erase hget).2
      have hsteps : s₁.steps = s.steps := (congrArg Work.steps hwork).trans (congrArg Prod.snd (Work.books_settle _ _ _))
      refine Yields.mono (cancelTasks_cancels owner reason keys hl₁ hown₁) fun _ s₂ evs₂ ⟨hlen₂, hl₂, hs₂⟩ => ⟨?_, hl₂, hs₂.trans hsteps⟩
      rw [List.length_append, List.length_cons, hlen₁]
      omega

theorem closeJoin_opens {fan : String} {join n : Node} (hl : s.Live)
    (hown : ∀ (k : String) (t : Task), s.tasks[k]? = some t → t.owner = fan) (hne : join.next ≠ "")
    (hn : c.fl.node join.next = some n) (ht : n.type = .fanout) (hsteps : s.steps + 1 < c.fl.maxStepsOrDefault)
    (hnd : n.branches.Nodup) (hbs : ∀ b ∈ n.branches, ∃ bn, c.fl.node b = some bn ∧ bn.type = .task)
    (succeeded failed : List String) :
    Yields (fun e => ¬e.benign) (closeJoin c fan join succeeded failed true) s fun _ _ evs =>
      s.tasks.keys.length + 2 + enterCost c.fl join.next ≤ evs.length := by
  refine Yields.getSt (Yields.bind (cancelTasks_cancels fan _ s.tasks.keys hl hown) fun _ s₁ evs₁ ⟨hlen₁, hl₁, hs₁⟩ => Yields.getSt ?_)
  refine Yields.bind (emit_live hl₁ rfl) fun _ s₂ evs₂ ⟨hlen₂, hl₂, hw₂⟩ => ?_
  refine Yields.bind (emit_live hl₂ rfl) fun _ s₃ evs₃ ⟨hlen₃, hl₃, hw₃⟩ => ?_
  have hs₂ : s₂.steps = s₁.steps + 1 := congrArg Work.steps hw₂
  have hs₃ : s₃.steps = s₂.steps := congrArg Work.steps hw₃
  simp only [if_true, advance, hne, if_false]
  refine Yields.mono (enter_branches hn ht hl₃ (by omega) hnd hbs) fun _ _ evs₄ ⟨hlen₄, _⟩ => ?_
  simp only [List.length_append]
  omega

/-- The first branch that succeeds settles an `any` join, which leads to a fan-out. -/
theorem complete_opens {fan b : String} {t : Task} {bn join n : Node} {f : Fan} (hl : s.Live) (htask : s.tasks[b]? = some t)
    (hruns : t.Runs fan b) (hbn : c.fl.node b = some bn) (hfan : s.fans[fan]? = some f) (hj : c.fl.node f.join = some join)
    (hkind : join.joinKind = .any) (hwait : b ∈ c.fl.waitFor join.id)
    (hown : ∀ (k : String) (t : Task), s.tasks[k]? = some t → t.owner = fan) (hbudget : c.fl.budget = ∅) (hne : join.next ≠ "")
    (hn : c.fl.node join.next = some n) (ht : n.type = .fanout) (hsteps : s.steps + 1 < c.fl.maxStepsOrDefault)
    (hnd : n.branches.Nodup) (hbs : ∀ b ∈ n.branches, ∃ bn, c.fl.node b = some bn ∧ bn.type = .task) :
    Yields (fun e => ¬e.benign) (complete c { key := b, generation := t.generation, attempt := t.attempt }) s fun _ _ evs =>
      (s.tasks.erase b).keys.length + 3 + enterCost c.fl join.next ≤ evs.length := by
  have hcur : current s ⟨b, t.generation, t.attempt⟩ = some t := by simp [current, htask, hruns.status]
  have hover : ∀ s : State, overBudgetWith c s ∅ = none := fun s => by
    unfold overBudgetWith
    rw [hbudget]
    rfl
  refine Yields.getSt ?_
  simp only [hcur, nodeOf, hruns.node, hbn, pure_bind]
  have hcheck : checkCompletion c s bn t none { key := b, generation := t.generation, attempt := t.attempt } = none := by
    have hnone : checkWrites c.x c.fl s (∅ : SMap Json).toList = .ok () := rfl
    simp [checkCompletion, hnone]
  simp only [isNull, if_true, hcheck]
  refine Yields.bind (emit_live hl rfl) fun _ s₁ evs₁ h₁ => Yields.getSt ?_
  obtain ⟨hlen₁, hl₁, hw₁⟩ := h₁
  simp only [hover]
  have hwork : s₁.work = s.work.finishTask b := hruns.key ▸ hw₁
  have htasks : s₁.tasks = s.tasks.erase b := by
    refine (congrArg (fun w : Work => w.tasks) hwork).trans ?_
    simp only [Work.finishTask, Work.settle, show s.work.tasks[b]? = some t from htask]
    rfl
  have hfans : s₁.fans[fan]? = some { f with branches := f.branches.insert b .completed } := by
    refine (congrArg (fun w : Work => w.fans[fan]?) hwork).trans ?_
    simp only [Work.finishTask, Work.settle, show s.work.tasks[b]? = some t from htask, Work.settleFans, hruns.owner, hruns.node,
      show s.work.fans[fan]? = some f from hfan]
    exact get_insert.trans (if_pos rfl)
  have hs₁ : s₁.steps = s.steps := (congrArg Work.steps hwork).trans (congrArg Prod.snd (Work.books_finishTask _ _))
  refine Yields.getSt ?_
  simp only [hl₁.unended, hruns.owner, hfans, Option.isSome_some, if_true, Bool.false_eq_true, if_false]
  have hverdict : (tally join.joinKind (c.fl.waitFor join.id) { f with branches := f.branches.insert b .completed }).verdict = some true := by
    have hmem : b ∈ (c.fl.waitFor join.id).filter fun b' =>
        branchOutcome { f with branches := f.branches.insert b .completed } b' = .completed := by
      simp [hwait, branchOutcome, Std.ExtTreeMap.getD_insert_self]
    have hpos := List.length_pos_of_mem hmem
    simp only [tally, hkind]
    rw [if_pos (by omega)]
  refine Yields.getSt ?_
  simp only [hfans, hj, hverdict]
  refine Yields.mono (closeJoin_opens hl₁ (fun k t' hget => ?_) hne hn ht (by omega) hnd hbs _ _) fun _ _ evs₂ hlen₂ => ?_
  · rw [htasks] at hget
    exact hown k t' (get_of_erase hget).2
  · rw [htasks] at hlen₂
    rw [List.length_append]
    omega

/-- A flow that starts with a fan-out of tasks. -/
theorem start_opens {execID hash : String} {n : Node} {p : Cmd.StartData} (hp : p.input = none)
    (hhash : c.x.flowHash c.fl = .ok hash) (hstart : c.fl.startNode = some n.id) (hn : c.fl.node n.id = some n)
    (ht : n.type = .fanout) (hsteps : 0 < c.fl.maxStepsOrDefault) (hnd : n.branches.Nodup)
    (hbs : ∀ b ∈ n.branches, ∃ bn, c.fl.node b = some bn ∧ bn.type = .task) :
    Yields (fun e => ¬e.benign) (start c p) (State.new execID) fun _ s' _ => s'.Live ∧
      (∀ b ∈ n.branches, ∃ t, s'.tasks[b]? = some t ∧ t.Runs n.id b) ∧ (∀ k, k ∉ n.branches → s'.tasks[k]? = none) ∧
      s'.steps = 1 + n.branches.length ∧ ∃ f, s'.fans[n.id]? = some f ∧ f.join = (c.fl.joinOf n.id).getD "" := by
  refine Yields.getSt ?_
  simp only [(State.absent_new execID).not_exists, Bool.false_eq_true, if_false, hp, isNull, isObject, if_true, hhash, hstart,
    Option.getD_some]
  have hemit : ∀ d, Yields (fun e => ¬e.benign) (emit c (.started d)) (State.new execID) fun _ s' _ =>
      s'.Live ∧ s'.work = (State.new execID).work := fun d => by
    refine Yields.emit (fun s' ha => ⟨?_, State.apply_work ha⟩) fun _ ha => State.apply_error ha
    obtain ⟨-, s₁, hd, rfl⟩ := State.apply_ok.1 ha
    cases hd
    exact State.finish_live _ (.inl rfl)
  refine Yields.bind (hemit _) fun _ s₁ _ ⟨hl₁, hw₁⟩ => ?_
  have hs₁ : s₁.steps = 0 := congrArg Work.steps hw₁
  have ht₁ : s₁.tasks = ∅ := congrArg (fun w : Work => w.tasks) hw₁
  refine Yields.mono (enter_branches hn ht hl₁ (by omega) hnd hbs) fun _ s₂ _ ⟨_, hl₂, htask, hrest, hsteps₂, hfan⟩ =>
    ⟨hl₂, htask, fun k hk => ?_, by omega, hfan⟩
  rw [hrest k hk, ht₁, get_empty]

end

/-! ### Two fan-outs in a row -/

def wing (letter : String) : List String := (List.range maxBranches).map fun i => letter ++ toString i

def wingTask (timeout : Int) (id : String) : Node := { id, type := .task, kind := "write", timeout }

def firstFan : Node := { id := "first", type := .fanout, branches := wing "a", next := "merge" }

def mergeJoin : Node := { id := "merge", type := .join, policy := "any", next := "second" }

def secondFan : Node := { id := "second", type := .fanout, branches := wing "b", next := "last" }

def lastJoin : Node := { id := "last", type := .join, policy := "any" }

/-- Two fan-outs of 256 tasks; the join of the first waits for any of them and leads to the second. -/
def wideReview : Flow :=
  let nodes := firstFan :: (wing "a").map (wingTask 0) ++ mergeJoin :: secondFan :: (wing "b").map (wingTask 60) ++ [lastJoin]
  { oneTask with start := "first", nodes }

theorem mem_wideReview : n ∈ wideReview.nodes ↔ n = firstFan ∨ (∃ b ∈ wing "a", n = wingTask 0 b) ∨ n = mergeJoin ∨
    n = secondFan ∨ (∃ b ∈ wing "b", n = wingTask 60 b) ∨ n = lastJoin := by
  simp only [wideReview, List.mem_append, List.mem_cons, List.mem_map, List.not_mem_nil, or_false, eq_comm, or_assoc]

theorem wing_nodup (letter : String) : (wing letter).Nodup := by
  exact List.Nodup.map (fun i j h => append_toString_inj h) List.nodup_range

theorem wing_letter (h : b ∈ wing letter) : ∃ i < maxBranches, b = letter ++ toString i := by
  obtain ⟨i, hi, rfl⟩ := List.mem_map.1 h
  exact ⟨i, List.mem_range.1 hi, rfl⟩

theorem wingTask_ids (timeout : Int) (letter : String) : ((wing letter).map (wingTask timeout)).map Node.id = wing letter := by
  rw [List.map_map]
  exact (List.map_congr_left fun _ _ => rfl).trans (List.map_id _)

theorem wideReview_ids : wideReview.nodes.map Node.id = "first" :: wing "a" ++ "merge" :: "second" :: wing "b" ++ ["last"] := by
  simp only [wideReview, List.map_append, List.map_cons, wingTask_ids, List.map_nil, show firstFan.id = "first" from rfl,
    show mergeJoin.id = "merge" from rfl, show secondFan.id = "second" from rfl, show lastJoin.id = "last" from rfl]

/-- The ids of a wing start with its letter. -/
theorem wing_head (hl : letter.toList = [l]) (h : b ∈ wing letter) : b.toList.head? = some l := by
  obtain ⟨i, -, rfl⟩ := wing_letter h
  simp [String.toList_append, hl]

theorem wideReview_nodup : (wideReview.nodes.map Node.id).Nodup := by
  have ha : ∀ b ∈ wing "a", b.toList.head? = some 'a' := fun b => wing_head rfl
  have hb : ∀ b ∈ wing "b", b.toList.head? = some 'b' := fun b => wing_head rfl
  have hout : ∀ {b : String} {l : Char}, (∀ w ∈ wing b, w.toList.head? = some l) → ∀ id : String, id.toList.head? ≠ some l → id ∉ wing b :=
    fun h id hne hid => hne (h id hid)
  rw [wideReview_ids]
  simp only [List.cons_append, List.append_assoc, List.nodup_cons, List.nodup_append, List.mem_append, List.mem_cons, not_or]
  refine ⟨⟨hout ha _ (by decide), by decide, by decide, hout hb _ (by decide), by decide, by simp⟩, wing_nodup _,
    ⟨⟨by decide, hout hb _ (by decide), by decide, by simp⟩, ⟨hout hb _ (by decide), by decide, by simp⟩, wing_nodup _, by simp, ?_⟩, ?_⟩
  · rintro w hw v hv rfl
    rcases hv with rfl | hv
    · exact hout hb _ (by decide) hw
    · cases hv
  · rintro w hw v hv rfl
    rcases hv with rfl | rfl | hv | rfl | hv
    · exact hout ha _ (by decide) hw
    · exact hout ha _ (by decide) hw
    · have := (ha w hw).symm.trans (hb w hv)
      simp at this
    · exact hout ha _ (by decide) hw
    · cases hv

theorem wideReview_node (h : n ∈ wideReview.nodes) : wideReview.node n.id = some n := Flow.node_of_mem wideReview_nodup h

theorem indexProblems_of {x : Ext} : ∀ {ns : List Node} {seen : List String}, (ns.map Node.id).Nodup →
    (∀ n ∈ ns, n.id ∉ seen ∧ checkToken x.quote "node id" n.id = none) → indexProblems x seen ns = []
  | [], _, _, _ => rfl
  | n :: ns, seen, hnd, h => by
    obtain ⟨hnew, hnd⟩ := List.nodup_cons.1 hnd
    obtain ⟨hseen, htoken⟩ := h n List.mem_cons_self
    have hc : seen.contains n.id = false := by simpa using hseen
    simp only [indexProblems, htoken, hc, Bool.false_eq_true, if_false, causeProblem, List.nil_append]
    refine indexProblems_of hnd fun m hm => ⟨fun hmem => ?_, (h m (List.mem_cons_of_mem _ hm)).2⟩
    rcases List.mem_cons.1 hmem with he | hmem
    · exact hnew (he ▸ List.mem_map_of_mem hm)
    · exact (h m (List.mem_cons_of_mem _ hm)).1 hmem

theorem wing_token (hl : letter.toList = [l]) (hc : tokenChar l = true) (h : b ∈ wing letter) :
    checkToken plainExt.quote "node id" b = none := by
  obtain ⟨i, hi, rfl⟩ := wing_letter h
  have hdigits : (toString i).length ≤ 19 := length_toString_le (hi.trans (by decide))
  have hlen : letter.length = 1 := by rw [← String.length_toList, hl]; rfl
  have hvalid : validToken (letter ++ toString i) = true := by
    refine validToken_iff.2 ⟨fun ch hch => ?_, ?_⟩
    · rw [String.toList_append, hl] at hch
      rcases List.mem_append.1 hch with hch | hch
      · rw [List.mem_singleton.1 hch]
        exact hc
      · exact tokenChar_of_digit hch
    · rw [String.length_append, hlen]
      omega
  rw [checkToken, if_pos hvalid]

theorem wing_length (letter : String) : (wing letter).length = maxBranches := by simp [wing]

theorem wing_ne_nil (letter : String) : wing letter ≠ [] := fun h => by
  have := wing_length letter
  rw [h] at this
  cases this

theorem mem_wing (letter : String) {i : Nat} (hi : i < maxBranches) : letter ++ toString i ∈ wing letter :=
  List.mem_map.2 ⟨i, List.mem_range.2 hi, rfl⟩

-- what is used of the wings from here on are the facts above
attribute [irreducible] wing

theorem wingTask_problems {x : Ext} {f : Flow} {timeout : Int} (ht : timeout = 0 ∨ timeout = 60) :
    nodeProblems x f (wingTask timeout id) = [] := by
  have hkind : checkToken x.quote "worker kind" "write" = none := by
    rw [checkToken, if_pos (by decide)]
  have hneg : ¬timeout < 0 := by omega
  simp [nodeProblems, wingTask, foreignProblems, foreignFields, fieldSet, allowedFields, metaProblems, typeProblems, taskProblems,
    attemptProblems, isNull, hkind, hneg]

theorem refProblems_of {x : Ext} {f : Flow} {m : Node} {field : String} (hid : id ≠ "") (h : f.node id = some m) :
    refProblems x f n field id = [] := by
  simp [refProblems, hid, h]

theorem wingFan_problems {join : String} {m : Node} (hl : letter.toList = [l])
    (hbs : ∀ b ∈ wing letter, ∃ bn, wideReview.node b = some bn ∧ bn.type = .task) (hj : wideReview.node join = some m) (hjne : join ≠ "")
    (hne : join ≠ id) : nodeProblems plainExt wideReview { id, type := .fanout, branches := wing letter, next := join } = [] := by
  have hfields : foreignProblems { id, type := .fanout, branches := wing letter, next := join } = [] := by
    simp [foreignProblems, foreignFields, fieldSet, allowedFields, wing_ne_nil, hjne, isNull]
  simp only [nodeProblems, hfields, metaProblems, typeProblems, fanoutProblems, wing_ne_nil, wing_length, hjne, if_false,
    List.append_eq_nil_iff, List.flatMap_eq_nil_iff, refProblems_of hjne hj, problemIf_nil]
  refine ⟨⟨⟨⟨trivial, trivial⟩, ⟨by simp, fun bi hbi => ?_⟩, by simp⟩, trivial, by simpa using hne⟩, by simp⟩
  have hb : bi.1 ∈ wing letter := List.fst_mem_of_mem_zipIdx hbi
  obtain ⟨bn, hbn, -⟩ := hbs _ hb
  refine refProblems_of (fun he => ?_) hbn
  have hhead := wing_head hl hb
  rw [he] at hhead
  simp at hhead

theorem anyJoin_problems {next : String} (hnext : next = "" ∨ next ≠ id ∧ next ≠ "" ∧ ∃ m, wideReview.node next = some m) :
    nodeProblems plainExt wideReview { id, type := .join, policy := "any", next } = [] := by
  have htrim : trimSpace "any" = "any" := by decide
  have hkind : ({ id, type := .join, policy := "any", next } : Node).joinKind = .any := by simp [Node.joinKind, htrim]
  rcases hnext with rfl | ⟨hne, hnn, m, hm⟩
  · simp [nodeProblems, foreignProblems, foreignFields, fieldSet, allowedFields, metaProblems, typeProblems, waitForProblems,
      policyProblems, hkind, isNull]
  · simp [nodeProblems, foreignProblems, foreignFields, fieldSet, allowedFields, metaProblems, typeProblems, waitForProblems,
      policyProblems, hkind, isNull, hnn, hne, refProblems_of hnn hm]

theorem wideReview_wings : (∀ b ∈ wing "a", ∃ bn, wideReview.node b = some bn ∧ bn.type = .task) ∧
    ∀ b ∈ wing "b", ∃ bn, wideReview.node b = some bn ∧ bn.type = .task :=
  ⟨fun b hb => ⟨wingTask 0 b, wideReview_node (mem_wideReview.2 (.inr (.inl ⟨b, hb, rfl⟩))), rfl⟩,
   fun b hb => ⟨wingTask 60 b, wideReview_node (mem_wideReview.2 (.inr (.inr (.inr (.inr (.inl ⟨b, hb, rfl⟩)))))), rfl⟩⟩

theorem wideReview_nodes : wideReview.node "first" = some firstFan ∧ wideReview.node "merge" = some mergeJoin ∧
    wideReview.node "second" = some secondFan ∧ wideReview.node "last" = some lastJoin :=
  ⟨wideReview_node (n := firstFan) (mem_wideReview.2 (.inl rfl)), wideReview_node (n := mergeJoin) (mem_wideReview.2 (.inr (.inr (.inl rfl)))),
   wideReview_node (n := secondFan) (mem_wideReview.2 (.inr (.inr (.inr (.inl rfl))))),
   wideReview_node (n := lastJoin) (mem_wideReview.2 (.inr (.inr (.inr (.inr (.inr rfl))))))⟩

theorem wideReview_local : localProblems plainExt wideReview = [] := by
  obtain ⟨hfirst, hmerge, hsecond, hlast⟩ := wideReview_nodes
  simp only [localProblems, List.append_eq_nil_iff, List.flatMap_eq_nil_iff]
  refine ⟨⟨⟨rfl, indexProblems_of wideReview_nodup fun n hn => ⟨by simp, ?_⟩⟩, rfl⟩, fun n hn => ?_⟩
  · rcases mem_wideReview.1 hn with rfl | ⟨b, hb, rfl⟩ | rfl | rfl | ⟨b, hb, rfl⟩ | rfl
    · decide
    · exact wing_token rfl (by decide) hb
    · decide
    · decide
    · exact wing_token rfl (by decide) hb
    · decide
  · rcases mem_wideReview.1 hn with rfl | ⟨b, hb, rfl⟩ | rfl | rfl | ⟨b, hb, rfl⟩ | rfl
    · exact wingFan_problems rfl wideReview_wings.1 hmerge (by decide) (by decide)
    · exact wingTask_problems (by decide)
    · exact anyJoin_problems (.inr ⟨by decide, by decide, _, hsecond⟩)
    · exact wingFan_problems rfl wideReview_wings.2 hlast (by decide) (by decide)
    · exact wingTask_problems (by decide)
    · exact anyJoin_problems (.inl rfl)

theorem wideReview_fanouts : wideReview.fanouts = [firstFan, secondFan] := by
  have hnone : ∀ (timeout : Int) (l : List String), (l.map (wingTask timeout)).filter (fun n => n.type = .fanout) = [] := by
    intro timeout l
    simp [List.filter_eq_nil_iff, wingTask]
  simp [Flow.fanouts, fanoutsIn, wideReview, List.filter_append, hnone, firstFan, mergeJoin, secondFan, lastJoin]

theorem wideReview_branches : wideReview.allBranches = wing "a" ++ wing "b" := by
  simp [Flow.allBranches, wideReview_fanouts, firstFan, secondFan]

theorem not_branch (ha : id.toList.head? ≠ some 'a') (hb : id.toList.head? ≠ some 'b') : id ∉ wideReview.allBranches := by
  rw [wideReview_branches, List.mem_append]
  rintro (h | h)
  · exact ha (wing_head rfl h)
  · exact hb (wing_head rfl h)

theorem wingTask_routes (timeout : Int) (id : String) : routes (wingTask timeout id) = [] := by simp [routes, wingTask]

theorem wideReview_joins {j : Node} (hj : j ∈ wideReview.nodes) (ht : j.type = .join) : j = mergeJoin ∨ j = lastJoin := by
  rcases mem_wideReview.1 hj with rfl | ⟨b, hb, rfl⟩ | rfl | rfl | ⟨b, hb, rfl⟩ | rfl
  · cases ht
  · cases ht
  · exact .inl rfl
  · cases ht
  · cases ht
  · exact .inr rfl

theorem wideReview_leads (hn : n ∈ wideReview.nodes) (hb : b ∈ successors n) : wideReview.Leads n.id b :=
  ⟨n, wideReview_node hn, hb⟩

theorem wideReview_shaped : Shaped wideReview := by
  obtain ⟨hfirst, hmerge, hsecond, hlast⟩ := wideReview_nodes
  have hmem : ∀ {n : Node} {id : String}, wideReview.node id = some n → n ∈ wideReview.nodes := Flow.node_mem
  have hany : ∀ j : Node, j = mergeJoin ∨ j = lastJoin → j.joinKind = .any := by
    rintro j (rfl | rfl) <;> decide +kernel
  refine { closed := ?_, closes := ?_, once := ?_, branch := ?_, route := ?_, waits := ?_, count := ?_, reached := ?_ }
  · rw [wideReview_fanouts]
    simp only [List.mem_cons, List.not_mem_nil, or_false]
    rintro fan (rfl | rfl)
    · exact ⟨mergeJoin, hmem hmerge, rfl, rfl⟩
    · exact ⟨lastJoin, hmem hlast, rfl, rfl⟩
  · intro j hj ht
    rw [wideReview_fanouts]
    simp only [List.mem_cons, List.not_mem_nil, or_false]
    rcases wideReview_joins hj ht with rfl | rfl
    · refine ⟨firstFan, ⟨.inl rfl, rfl⟩, ?_⟩
      rintro fan ⟨rfl | rfl, hnext⟩
      · rfl
      · exact absurd hnext (by decide)
    · refine ⟨secondFan, ⟨.inr rfl, rfl⟩, ?_⟩
      rintro fan ⟨rfl | rfl, hnext⟩
      · exact absurd hnext (by decide)
      · rfl
  · rw [wideReview_branches, List.nodup_append]
    refine ⟨wing_nodup _, wing_nodup _, ?_⟩
    rintro w hw v hv rfl
    have := (wing_head (l := 'a') rfl hw).symm.trans (wing_head (l := 'b') rfl hv)
    simp at this
  · intro b hb bn hbn
    rw [wideReview_branches, List.mem_append] at hb
    have htask : ∃ timeout, bn = wingTask timeout b := by
      rcases hb with hb | hb
      · have := wideReview_node (mem_wideReview.2 (.inr (.inl ⟨b, hb, rfl⟩)))
        exact ⟨0, Option.some.inj (hbn.symm.trans this)⟩
      · have := wideReview_node (mem_wideReview.2 (.inr (.inr (.inr (.inr (.inl ⟨b, hb, rfl⟩))))))
        exact ⟨60, Option.some.inj (hbn.symm.trans this)⟩
    obtain ⟨timeout, rfl⟩ := htask
    exact ⟨.inl rfl, wingTask_routes _ _⟩
  · intro n hn r hr
    rcases mem_wideReview.1 hn with rfl | ⟨b, hb, rfl⟩ | rfl | rfl | ⟨b, hb, rfl⟩ | rfl
    · obtain rfl : r = ⟨"next", "merge"⟩ := by simpa [routes, firstFan] using hr
      exact ⟨not_branch (by decide) (by decide), fun _ _ _ => ⟨rfl, rfl⟩⟩
    · rw [wingTask_routes] at hr
      cases hr
    · obtain rfl : r = ⟨"next", "second"⟩ := by simpa [routes, mergeJoin] using hr
      refine ⟨not_branch (by decide) (by decide), fun t ht hjoin => ?_⟩
      rw [hsecond] at ht
      cases ht
      cases hjoin
    · obtain rfl : r = ⟨"next", "last"⟩ := by simpa [routes, secondFan] using hr
      exact ⟨not_branch (by decide) (by decide), fun _ _ _ => ⟨rfl, rfl⟩⟩
    · rw [wingTask_routes] at hr
      cases hr
    · simp [routes, lastJoin] at hr
  · intro fan _ j hj ht _ w hw
    rcases wideReview_joins hj ht with rfl | rfl <;> cases hw
  · intro fan _ j hj ht _ q hq
    rw [hany j (wideReview_joins hj ht)] at hq
    rcases hq with hq | hq <;> cases hq
  · have hto : ∀ {b : String}, b ∈ wing "a" → Relation.ReflTransGen wideReview.Leads "first" b := fun {b} hb =>
      .single (wideReview_leads (hmem hfirst) (by simp [successors, firstFan, hb]))
    have hm : Relation.ReflTransGen wideReview.Leads "first" "merge" :=
      .single (wideReview_leads (hmem hfirst) (by simp [successors, routes, firstFan]))
    have hs : Relation.ReflTransGen wideReview.Leads "first" "second" :=
      hm.tail (wideReview_leads (hmem hmerge) (by simp [successors, routes, mergeJoin]))
    refine ⟨firstFan, hmem hfirst, ?_, fun m hm' => ?_⟩
    · unfold Flow.StartsAt
      rw [if_pos (by decide)]
      exact ⟨rfl, by decide, not_branch (by decide) (by decide)⟩
    · rcases mem_wideReview.1 hm' with rfl | ⟨b, hb, rfl⟩ | rfl | rfl | ⟨b, hb, rfl⟩ | rfl
      · exact .refl
      · exact hto hb
      · exact hm
      · exact hs
      · exact hs.tail (wideReview_leads (hmem hsecond) (by simp [successors, secondFan, wingTask, hb]))
      · exact hs.tail (wideReview_leads (hmem hsecond) (by simp [successors, routes, secondFan, lastJoin]))

theorem wideReview_valid : validate plainExt wideReview = [] := by
  have hne : wideReview.nodes.isEmpty = false := rfl
  rw [validate, hne, if_neg (by simp), if_neg (by simp [wideReview_local])]
  exact (graphProblems_iff (local_of_problems wideReview_local)).2 wideReview_shaped

theorem wideReview_basic : wideReview.Basic := by
  intro n hn
  rcases mem_wideReview.1 hn with rfl | ⟨b, hb, rfl⟩ | rfl | rfl | ⟨b, hb, rfl⟩ | rfl
  · exact .inr (.inr (.inl rfl))
  · exact .inl rfl
  · exact .inr (.inr (.inr rfl))
  · exact .inr (.inr (.inl rfl))
  · exact .inl rfl
  · exact .inr (.inr (.inr rfl))

theorem wideReview_good : wideReview.fanIndex.Good wideReview wideReview.nodes := by
  have hgraph := (graphProblems_iff (local_of_problems wideReview_local)).2 wideReview_shaped
  simp only [graphProblems, List.append_eq_nil_iff] at hgraph
  exact (local_of_problems wideReview_local).good hgraph.1.1.1.1

theorem enterCost_fanout {fl : Flow} {k : Nat} (hn : fl.node id = some n) (ht : n.type = .fanout)
    (hb : ∀ b ∈ n.branches, branchCost fl b = k) : enterCost fl id = 2 + n.branches.length * k := by
  simp only [enterCost, hn, ht]
  rw [List.map_congr_left hb, List.map_const', List.sum_replicate, smul_eq_mul]

theorem branchCost_timed {fl : Flow} (hn : fl.node b = some n) (ht : n.type = .task) (h0 : 0 < n.timeout) :
    branchCost fl b = 3 := by
  simp [branchCost, hn, ht, attemptCost, h0]

theorem secondFan_cost : enterCost wideReview "second" = 2 + maxBranches * 3 := by
  have hcost := enterCost_fanout wideReview_nodes.2.2.1 rfl (k := 3) fun b hb =>
    branchCost_timed (wideReview_node (mem_wideReview.2 (.inr (.inr (.inr (.inr (.inl ⟨b, hb, rfl⟩))))))) rfl (show (0 : Int) < 60 by decide)
  have hlen : secondFan.branches.length = maxBranches := wing_length "b"
  rw [hcost, hlen]

/-- A program whose errors are excluded on both sides ends well. -/
theorem Yields.sure {m : DecM Unit} {s : State} {P : Unit → State → List Event → Prop} (h : Yields (fun e => ¬e.benign) m s P)
    (hb : ∀ e, (runDecision m s).result = .error e → e.benign) :
    ∃ evs, (runDecision m s).result = .ok evs ∧ P () (runDecision m s).state evs := by
  cases hres : (runDecision m s).result with
  | ok evs => exact ⟨evs, rfl, Yields.decision h hres⟩
  | error e => exact absurd (hb e hres) (Yields.refused h hres)

/-- The state after the start: the first fan-out is open and all of its tasks are in flight. -/
structure WideStarted (s : State) : Prop where
  live : s.Live
  task : ∀ b ∈ wing "a", ∃ t, s.tasks[b]? = some t ∧ t.Runs "first" b
  rest : ∀ k, k ∉ wing "a" → s.tasks[k]? = none
  steps : s.steps = 1 + (wing "a").length
  fan : ∃ f, s.fans["first"]? = some f ∧ f.join = (wideReview.joinOf "first").getD ""

theorem wideReview_startNode : wideReview.startNode = some "first" := by
  obtain ⟨n, hn, hat, -⟩ := wideReview_shaped.reached
  have hid : n.id = "first" := by
    unfold Flow.StartsAt at hat
    rw [if_pos (by decide)] at hat
    exact hat.1
  exact (local_of_problems wideReview_local).startNode_iff.2 ⟨n, hn, hid, hat⟩

theorem wideReview_started : ∃ s log, Reachable plainExt wideReview s log ∧ WideStarted s := by
  have hopens := @start_opens ⟨plainExt, wideReview, 1, "start-1"⟩ "r1" _ firstFan { flow := "review" } rfl rfl
    wideReview_startNode wideReview_nodes.1 rfl (by decide) (wing_nodup "a") wideReview_wings.1
  have hruns := start_runs (c := ⟨plainExt, wideReview, 1, "start-1"⟩) (wellFormed_of_validate wideReview_valid) (State.absent_new "r1")
    { flow := "review" }
  obtain ⟨evs, hok, hlive, htask, hrest, hsteps, hfan⟩ := Yields.sure hopens fun e he => Runs.refused hruns he
  have hdec : Packtrail.decide plainExt wideReview (State.new "r1") startReview 1 =
      runDecision (start ⟨plainExt, wideReview, 1, "start-1"⟩ { flow := "review" }) (State.new "r1") := rfl
  have hnew : Reachable plainExt wideReview (State.new "r1") [] := .new "r1"
  have hreach := hnew.command startReview 1 (by rw [hdec, hok]; rfl)
  rw [hdec] at hreach
  exact ⟨_, _, hreach, hlive, htask, hrest, hsteps, hfan⟩

/-- The first task of the first fan-out completes: its event, the other 255 tasks cancelled, the join entered and closed, the
second fan-out entered and opened, and three events for each of its tasks. -/
theorem wideReview_overflows : validate plainExt wideReview = [] ∧ wideReview.Basic ∧
    ∃ s log cmd evs, Reachable plainExt wideReview s log ∧ (Packtrail.decide plainExt wideReview s cmd 2).result = .ok evs ∧
      maxEvents < evs.length ∧
      ({ cache := some s } : Engine).Replaces ⟨plainExt, wideReview, "r1", maxEvents, 1⟩ {} (.command cmd) 2 "" := by
  refine ⟨wideReview_valid, wideReview_basic, ?_⟩
  have hl := local_of_problems wideReview_local
  have hwf := wellFormed_of_validate wideReview_valid
  obtain ⟨hfirst, hmerge, hsecond, hlast⟩ := wideReview_nodes
  obtain ⟨s, log, hreach, hlive, htask, hrest, hsteps, f, hf, hjoin⟩ := wideReview_started
  -- the first completion
  have ha0 : "a0" ∈ wing "a" := mem_wing "a" (show 0 < maxBranches by decide)
  obtain ⟨t, ht, htr⟩ := htask "a0" ha0
  have hjoinOf : wideReview.joinOf "first" = some "merge" := (hl.joinOf_iff wideReview_good (Flow.node_mem hfirst)).2 ⟨rfl, rfl⟩
  have hwait : wideReview.waitFor "merge" = wing "a" :=
    hl.waitFor_eq wideReview_good (mem_fanouts.2 ⟨Flow.node_mem hfirst, rfl⟩) (Flow.node_mem hmerge) rfl
  have hfj : f.join = "merge" := by rw [hjoin]; exact congrArg (Option.getD · "") hjoinOf
  have hown : ∀ (k : String) (t : Task), s.tasks[k]? = some t → t.owner = "first" := by
    intro k t' hget
    by_cases hk : k ∈ wing "a"
    · obtain ⟨t'', hget', hr⟩ := htask k hk
      rw [hget] at hget'
      cases hget'
      exact hr.owner
    · rw [hrest k hk] at hget
      cases hget
  have hlen : s.steps = 1 + maxBranches := by rw [hsteps, wing_length]
  let cmd : Command := ⟨"done-1", .complete { key := "a0", generation := t.generation, attempt := t.attempt }⟩
  have hcloses := complete_opens (c := ⟨plainExt, wideReview, 2, "done-1"⟩) hlive ht htr
    (wideReview_node (mem_wideReview.2 (.inr (.inl ⟨"a0", ha0, rfl⟩)))) hf (by rw [hfj]; exact hmerge) (by decide +kernel)
    (by rw [show mergeJoin.id = "merge" from rfl, hwait]; exact ha0) hown rfl (by decide) hsecond rfl
    (by rw [hlen]; decide) (wing_nodup "b") wideReview_wings.2
  have hexists : s.exists = true := hlive.exists
  have hdec₂ : Packtrail.decide plainExt wideReview s cmd 2 = runDecision (complete ⟨plainExt, wideReview, 2, "done-1"⟩
      { key := "a0", generation := t.generation, attempt := t.attempt }) s := by
    simp [Packtrail.decide, cmd, CmdData.isStart, hexists, hlive.unended, decideData]
  obtain ⟨base, hdecides⟩ := hreach.decides hwf (Ask.sourced_command plainExt wideReview cmd) 2
  obtain ⟨evs, hok, hle⟩ := Yields.sure hcloses fun e he => by
    rcases hdecides with ⟨evs, hr, -⟩ | ⟨e', hr, hb⟩
    · have hr : (Packtrail.decide plainExt wideReview s cmd 2).result = .ok evs := hr
      rw [hdec₂, he] at hr
      cases hr
    · have hr : (Packtrail.decide plainExt wideReview s cmd 2).result = .error e' := hr
      rw [hdec₂, he] at hr
      cases hr
      exact hb
  rw [← hdec₂] at hok
  have hothers : ((wing "a").erase "a0").length ≤ (s.tasks.erase "a0").keys.length := by
    refine (((wing_nodup "a").erase _).subperm fun b hb => ?_).length_le
    obtain ⟨hne, hb⟩ := (wing_nodup "a").mem_erase_iff.1 hb
    obtain ⟨t', ht', -⟩ := htask b hb
    exact Std.ExtTreeMap.mem_keys.2 (Std.ExtTreeMap.mem_erase.2 ⟨by simpa using hne.symm, mem_of_get ht'⟩)
  have hcount : ((wing "a").erase "a0").length = maxBranches - 1 := by rw [List.length_erase_of_mem ha0, wing_length]
  have hcost : enterCost wideReview mergeJoin.next = 2 + maxBranches * 3 := secondFan_cost
  have hle : (s.tasks.erase "a0").keys.length + 3 + enterCost wideReview mergeJoin.next ≤ evs.length := hle
  have hlong : maxEvents < evs.length := by
    rw [hcost] at hle
    unfold maxEvents
    unfold maxBranches at hcount hle
    omega
  exact ⟨s, _, cmd, evs, hreach, hok, hlong, Engine.replaces rfl rfl hok hlong ""⟩

end Packtrail
