import Packtrail.Reach

/-
# What an event says of the flow

`Promise` numbers what is in progress. Here is the other half of the discipline: an event names nodes
that can do what it says, reads a list within its bounds and hands on what the state holds. `Due` states
it for a payload emitted in a state, `Blames` for the node a failure names, and `Work.Fits` is the
invariant behind both: everything open belongs to a node of its kind. Every program of the decider keeps
to it from any state that fits, whatever else is true there (`decideData_behaves`, `forkProg_behaves`);
the routes it follows lead to nodes that can be entered because the flow is well formed.
-/

namespace Packtrail

open Emitter Replay

/-- Instances of these nodes are tasks. -/
def NodeType.runs : NodeType → Bool
  | .task | .map => true
  | _ => false

/-- Instances of these nodes are child executions. -/
def NodeType.delegates : NodeType → Bool
  | .subflow | .map => true
  | _ => false

/-- Node `id` is there and of a type that `p` accepts. -/
def Flow.Has (fl : Flow) (p : NodeType → Bool) (id : String) : Prop := ∃ nd, fl.node id = some nd ∧ p nd.type = true

def NodeType.isJoin (t : NodeType) : Bool := t == .join

def NodeType.isAwait (t : NodeType) : Bool := t == .await

def NodeType.isMap (t : NodeType) : Bool := t == .map

/-- Everything open belongs to a node of its kind. -/
structure Work.Fits (fl : Flow) (w : Work) : Prop where
  task : ∀ {k : String} {t}, w.tasks[k]? = some t → fl.Has NodeType.runs t.node
  fan : ∀ {k : String} {f}, w.fans[k]? = some f → fl.Has NodeType.isJoin f.join
  map : ∀ {k : String} {m}, w.maps[k]? = some m → fl.Has NodeType.isMap k
  await : ∀ {k : String} {a}, w.awaits[k]? = some a → fl.Has NodeType.isAwait k
  child : ∀ {k : String} {ch}, w.children[k]? = some ch → fl.Has NodeType.delegates ch.node

/-- What a payload says of the state it is emitted in: its nodes are of the kind it needs, an entry is
within the recursion limit unless it is a branch's or a join's, a choice and a consumed signal are
found where the source looks for them, writes were checked. -/
def Payload.Due (x : Ext) (fl : Flow) (s : State) : Payload → Prop
  | .forked d => (unmarshal d.state).work.Fits fl
  | .continued d => (unmarshal d.state).work.Fits fl
  | .entered d => s.steps < fl.maxStepsOrDefault ∨
      (∃ fan nd, fl.node fan = some nd ∧ nd.type = .fanout ∧ d.node ∈ nd.branches) ∨ fl.Has NodeType.isJoin d.node
  | .scheduled d => fl.Has NodeType.runs d.node
  | .child d => fl.Has NodeType.delegates d.node
  | .await d => fl.Has NodeType.isAwait d.node
  | .map d => fl.Has NodeType.isMap d.node
  | .fanout d => fl.Has NodeType.isJoin d.join
  | .choice d => ∃ nd r, fl.node d.node = some nd ∧ nd.rules[d.rule]? = some r ∧ d.name = r.name ∧
      (d.toNode = r.toNode ∨ d.toNode = "")
  | .signalUse d => ∃ b nd, s.buffered.find? (fun b => b.name == d.name) = some b ∧ d.id = b.id ∧
      fl.node d.node = some nd ∧ nd.signal = d.name
  | .nodeDone d => checkWrites x fl s d.writes.toList = .ok ()
  | .update d => checkWrites x fl s d.writes.toList = .ok ()
  | _ => True

/-- `enter` gives the reason `error` to its two failures: no such node, and a node that cannot be entered. -/
def Payload.Blames (fl : Flow) : Payload → Prop
  | .failed d => d.reason = "error" → Enterable fl d.node
  | _ => True

/-- What entering, leaving and closing nodes emits. -/
def Payload.reacts : Payload → Bool
  | .completed _ | .failed _ | .entered _ | .scheduled _ | .nodeCancel _ | .choice _ | .fanout _ | .join _ | .await _
  | .signalUse _ | .map _ | .mapDone _ | .mapAbort _ | .child _ | .timer _ => true
  | _ => false

/-! ## The invariant, event by event -/

namespace Work

variable {fl : Flow} {w w' : Work}

theorem Fits.settleFans (h : w.Fits fl) {owner node : String} {o : BranchStatus} {k : String} {f : Fan}
    (hk : (w.settleFans owner node o)[k]? = some f) : fl.Has NodeType.isJoin f.join := by
  unfold Work.settleFans at hk
  cases hf : w.fans[owner]? with
  | none => rw [hf] at hk; exact h.fan hk
  | some f₀ =>
    rw [hf] at hk
    rcases get_of_insert hk with ⟨-, rfl⟩ | ⟨-, hk⟩
    · obtain ⟨nd, hnd⟩ := h.fan hf
      exact ⟨nd, hnd⟩
    · exact h.fan hk

theorem Fits.raiseNext (h : w.Fits fl) {owner node : String} {i : Nat} {k : String} {m : MapWork}
    (hk : (w.raiseNext owner node i)[k]? = some m) : fl.Has NodeType.isMap k := by
  unfold Work.raiseNext at hk
  split at hk
  · rename_i m₀ hm
    split at hk
    · rcases get_of_insert hk with ⟨rfl, -⟩ | ⟨-, hk⟩
      · exact h.map hm
      · exact h.map hk
    · exact h.map hk
  · exact h.map hk

theorem Fits.countDone (h : w.Fits fl) (owner node : String) :
    ({ w with maps := w.countDone owner node } : Work).Fits fl := by
  refine ⟨h.task, h.fan, fun {k m} hk => ?_, h.await, h.child⟩
  simp only [Work.countDone] at hk
  split at hk
  · rename_i m₀ hm
    split at hk
    · rcases get_of_insert hk with ⟨rfl, -⟩ | ⟨-, hk⟩
      · exact h.map hm
      · exact h.map hk
    · exact h.map hk
  · exact h.map hk

theorem Fits.settle (h : w.Fits fl) (key : String) (o : BranchStatus) : (w.settle key o).Fits fl := by
  unfold Work.settle
  cases w.tasks[key]? with
  | none => exact h
  | some t => exact ⟨fun hk => h.task (get_of_erase hk).2, fun hk => h.settleFans hk, h.map, h.await, h.child⟩

theorem Fits.setStatus (h : w.Fits fl) {key : String} {f : Task → Task} (hf : ∀ t, (f t).node = t.node) :
    (w.setStatus key f).Fits fl := by
  have ht : ∀ {k : String} {t}, (w.setStatus key f).tasks[k]? = some t → fl.Has NodeType.runs t.node := by
    intro k t hk
    rcases Work.get_setStatus hk with ⟨-, h₀⟩ | ⟨-, t₀, h₀, rfl⟩
    · exact h.task h₀
    · rw [hf]
      exact h.task h₀
  unfold Work.setStatus at ht ⊢
  cases hk : w.tasks[key]? with
  | none => exact h
  | some t => rw [hk] at ht; exact ⟨ht, h.fan, h.map, h.await, h.child⟩

theorem Fits.finishTask (h : w.Fits fl) (key : String) : (w.finishTask key).Fits fl := by
  unfold Work.finishTask
  cases w.tasks[key]? with
  | none => exact h
  | some t => exact (h.countDone t.owner t.node).settle _ _

theorem Fits.finishChild (h : w.Fits fl) (d : Event.ChildDone) : (w.finishChild d).Fits fl := by
  have h' : ({ w with children := w.children.erase d.instanceKey } : Work).Fits fl :=
    ⟨h.task, h.fan, h.map, h.await, fun hk => h.child (get_of_erase hk).2⟩
  unfold Work.finishChild
  cases w.children[d.instanceKey]? with
  | none => exact h'
  | some c =>
    simp only [Work.settleChild]
    split
    · rename_i m hm
      split
      · refine ⟨h'.task, h'.fan, fun hk => ?_, h'.await, h'.child⟩
        rcases get_of_insert hk with ⟨rfl, -⟩ | ⟨-, hk⟩
        · split at hm
          · exact h.map hm
          · cases hm
        · exact h.map hk
      · exact h'
    · exact ⟨h'.task, fun hk => h'.settleFans hk, h'.map, h'.await, h'.child⟩

theorem Fits.closed (w : Work) : w.closed.Fits fl := by
  constructor <;> intro k v hk <;> simp [Work.closed] at hk

/-- **What is due keeps everything open fitting.** -/
theorem Fits.step {x : Ext} {s : State} (h : s.work.Fits fl) {p : Payload} (hp : p.Due x fl s) : (s.work.step p).Fits fl := by
  cases p with
  | started d => exact h
  | forked d => exact ⟨hp.task, hp.fan, hp.map, hp.await, hp.child⟩
  | continued d => exact hp
  | completed d => exact Fits.closed _
  | failed d => exact Fits.closed _
  | cancelled d => exact Fits.closed _
  | scheduled d =>
    refine ⟨fun hk => ?_, h.fan, fun hk => h.raiseNext hk, h.await, h.child⟩
    rcases get_of_insert hk with ⟨-, rfl⟩ | ⟨-, hk⟩
    · exact hp
    · exact h.task hk
  | nodeDone d => exact h.finishTask _
  | nodeFail d =>
    simp only [Work.step]
    split
    · exact h.setStatus fun _ => rfl
    · exact h.settle _ _
  | interrupted d => exact h.setStatus fun _ => rfl
  | nodeCancel d => exact h.settle _ _
  | fanout d =>
    refine ⟨h.task, fun hk => ?_, h.map, h.await, h.child⟩
    rcases get_of_insert hk with ⟨-, rfl⟩ | ⟨-, hk⟩
    · exact hp
    · exact h.fan hk
  | join d =>
    refine ⟨h.task, fun hk => h.fan (get_of_erase hk).2, h.map, h.await, fun {k ch} hk => h.child (k := k) ?_⟩
    simp only [Work.step, Work.closeFan] at hk
    split at hk
    · exact (get_of_filter hk).1
    · exact hk
  | map d =>
    refine ⟨h.task, h.fan, fun hk => ?_, h.await, h.child⟩
    rcases get_of_insert hk with ⟨rfl, -⟩ | ⟨-, hk⟩
    · exact hp
    · exact h.map hk
  | mapDone d => exact ⟨h.task, h.fan, fun hk => h.map (get_of_erase hk).2, h.await, h.child⟩
  | mapAbort d =>
    exact ⟨h.task, h.fan, fun hk => h.map (get_of_erase hk).2, h.await, fun hk => h.child (get_of_filter hk).1⟩
  | await d =>
    refine ⟨h.task, h.fan, h.map, fun hk => ?_, h.child⟩
    rcases get_of_insert hk with ⟨rfl, -⟩ | ⟨-, hk⟩
    · exact hp
    · exact h.await hk
  | awaitTimeout d => exact ⟨h.task, h.fan, h.map, fun hk => h.await (get_of_erase hk).2, h.child⟩
  | signalUse d => exact ⟨h.task, h.fan, h.map, fun hk => h.await (get_of_erase hk).2, h.child⟩
  | child d =>
    refine ⟨h.task, h.fan, fun hk => h.raiseNext hk, h.await, fun hk => ?_⟩
    rcases get_of_insert hk with ⟨-, rfl⟩ | ⟨-, hk⟩
    · exact hp
    · exact h.child hk
  | childDone d => exact h.finishChild d
  | choice d => exact h
  | update d => exact h
  | _ => exact ⟨h.task, h.fan, h.map, h.await, h.child⟩

end Work

/-- A node with an open map is a map. -/
theorem Work.Fits.of_map {fl : Flow} {s : State} {n : Node} (h : s.work.Fits fl) (hn : fl.node n.id = some n)
    (hm : (s.maps[n.id]?).isSome = true) : n.type = .map := by
  obtain ⟨m, hm⟩ := Option.isSome_iff_exists.1 hm
  have hget := State.work_maps_of hm
  obtain ⟨nd, hnd, hty⟩ := h.map hget
  obtain rfl : nd = n := Option.some.inj (hnd.symm.trans hn)
  simpa [NodeType.isMap] using hty

theorem Flow.Has.enterable {fl : Flow} {id : String} (h : fl.Has NodeType.runs id) : Enterable fl id := by
  obtain ⟨nd, hnd, hty⟩ := h
  refine ⟨nd, hnd, ?_⟩
  cases ht : nd.type <;> rw [ht] at hty <;> first | rfl | cases hty

/-- The type of the node that is there. -/
theorem Flow.Has.type {fl : Flow} {p : NodeType → Bool} {id : String} {n : Node} (h : fl.Has p id)
    (hn : fl.node id = some n) : p n.type = true := by
  obtain ⟨nd, hnd, hty⟩ := h
  exact Option.some.inj (hnd.symm.trans hn) ▸ hty

/-! ## Programs that keep to it -/

/-- What the programs of a decision keep to, besides the kinds of events `A`. -/
structure Heeds (c : Ctx) (A : Payload → Prop) (s : State) (ev : Event) : Prop where
  kind : A ev.data
  due : ev.data.Due c.x c.fl s
  blames : ev.data.Blames c.fl

/-- Program `m` from a state that fits. -/
def Behaves {α : Type} (c : Ctx) (A : Payload → Prop) (m : DecM α) (s : State) : Prop :=
  s.work.Fits c.fl → Runs c.apply (Heeds c A) (fun _ => True) m s fun _ s' => s'.work.Fits c.fl

section
variable {c : Ctx} {A : Payload → Prop} {s : State} {α β : Type}

namespace Behaves

theorem pure (v : α) : Behaves c A (Pure.pure v : DecM α) s := fun h => Runs.pure h

theorem throw (e : Err) : Behaves c A (MonadExcept.throw e : DecM α) s := fun _ => Runs.throw trivial

theorem bind {m : DecM α} {f : α → DecM β} (hm : Behaves c A m s) (hf : ∀ v s', Behaves c A (f v) s') :
    Behaves c A (m >>= f) s :=
  fun h => (hm h).bind fun v s' h' => hf v s' h'

theorem ite {p : Prop} [Decidable p] {m m' : DecM α} (hm : p → Behaves c A m s) (hm' : ¬p → Behaves c A m' s) :
    Behaves c A (if p then m else m') s := by
  split
  · exact hm ‹_›
  · exact hm' ‹_›

theorem getSt {f : State → DecM β} (h : s.work.Fits c.fl → Behaves c A (f s) s) : Behaves c A (getSt >>= f) s :=
  fun hs => Runs.getSt (h hs hs)

theorem getAux {f : List String → DecM β} (h : ∀ a, Behaves c A (f a) s) : Behaves c A (getAux >>= f) s :=
  fun hs => Runs.getAux fun a => h a hs

theorem setAux {f : Unit → DecM β} {a : List String} (h : Behaves c A (f ()) s) : Behaves c A (setAux a >>= f) s :=
  fun hs => Runs.setAux (h hs)

theorem emit {p : Payload} (hA : A p) (hd : p.Due c.x c.fl s) (hb : p.Blames c.fl) :
    Behaves c A (emit c p) s := by
  intro hs
  refine Runs.emitAny ⟨hA, hd, hb⟩ (fun s' ha => ?_) fun _ _ => trivial
  rw [State.apply_work ha]
  exact hs.step hd

theorem nodeOf {id : String} {f : Node → DecM β} (h : ∀ n, c.fl.node id = some n → Behaves c A (f n) s) :
    Behaves c A (nodeOf c id >>= f) s := by
  unfold Packtrail.nodeOf
  cases hn : c.fl.node id with
  | none => exact fun _ => Runs.throw trivial
  | some n => exact h n hn

end Behaves

end

/-- What ends an execution, hands out work or takes it back. -/
def Payload.works : Payload → Bool
  | .completed _ | .failed _ | .scheduled _ | .nodeCancel _ | .child _ | .timer _ => true
  | _ => false

theorem working {A : Payload → Prop} (hA : ∀ p : Payload, p.reacts = true → A p) : ∀ p : Payload, p.works = true → A p := by
  intro p hp
  refine hA p ?_
  cases p <;> first | rfl | cases hp

section
variable {c : Ctx} {A : Payload → Prop} {s : State} (hA : ∀ p : Payload, p.works = true → A p)
include hA

/-! ### Ending and scheduling -/

theorem fail_behaves {reason msg node : String} (hr : reason = "error" → Enterable c.fl node) :
    Behaves c A (fail c reason msg node) s :=
  .getSt fun _ => .getAux fun _ => .emit (hA _ rfl) trivial hr

theorem complete0_behaves : Behaves c A (complete0 c) s := by
  have hexpr : ∀ {msg : String} {s : State}, Behaves c A (fail c "expression_error" msg "") s :=
    fail_behaves hA (fun h => by simp at h)
  refine .getSt fun _ => .ite (fun _ => ?_) fun _ => ?_
  · split
    · exact hexpr
    · split
      · exact hexpr
      · refine .ite (fun _ => .emit (hA _ rfl) trivial trivial) fun _ => ?_
        exact .ite (fun _ => .emit (hA _ rfl) trivial trivial) fun _ => hexpr
  · exact .ite (fun _ => .emit (hA _ rfl) trivial trivial) fun _ => .emit (hA _ rfl) trivial trivial

theorem timerAt_behaves (p : TimerPurpose) (after : Int) (key node : String) (gen attempt : Nat) :
    Behaves c A (timerAt c p after key node gen attempt) s :=
  .getSt fun _ => .emit (hA _ rfl) trivial trivial

variable {n : Node}

theorem schedule_behaves (hn : c.fl.Has NodeType.runs n.id) (key owner : String) (index : Nat) (item : Raw)
    (rs : Resumption) (gen attempt : Nat) : Behaves c A (schedule c n key owner index item rs gen attempt) s := by
  refine .getSt fun _ => .bind (.emit (hA _ rfl) hn trivial) fun _ s' => ?_
  exact .ite (fun _ => timerAt_behaves hA _ _ _ _ _ _) fun _ => .pure _

theorem startChild_behaves (hn : c.fl.Has NodeType.delegates n.id) (key owner : String) (index : Nat)
    (item : Raw) : Behaves c A (startChild c n key owner index item) s := by
  have hexpr : ∀ {msg node : String} {s : State}, Behaves c A (fail c "expression_error" msg node) s :=
    fail_behaves hA (fun h => by simp at h)
  refine .getSt fun _ => ?_
  simp only
  split
  · exact hexpr
  · exact .ite (fun _ => .emit (hA _ rfl) hn trivial) fun _ => hexpr

theorem mapLoop_behaves (hn : c.fl.node n.id = some n) (ht : n.type = .map) (items : List Json) (limit : Int)
    (rounds : Nat) : Behaves c A (mapLoop c n items limit rounds) s := by
  induction rounds generalizing s with
  | zero => exact .pure _
  | succ rounds ih =>
    refine .getSt fun _ => ?_
    split
    · exact .throw _
    · refine .ite (fun _ => ?_) fun _ => .pure _
      split
      · exact .pure _
      · have hrest : ∀ s', Behaves c A (do
            let s ← getSt
            if s.status.terminal then pure () else mapLoop c n items limit rounds) s' :=
          fun s' => .getSt fun _ => .ite (fun _ => .pure _) fun _ => ih
        refine .ite (fun _ => .bind (startChild_behaves hA ⟨n, hn, by rw [ht]; rfl⟩ _ _ _ _) fun _ => hrest) fun _ => ?_
        exact .bind (schedule_behaves hA ⟨n, hn, by rw [ht]; rfl⟩ _ _ _ _ _ _ _) fun _ => hrest

theorem cancelTasks_behaves (owner reason : String) (keys : List String) :
    Behaves c A (cancelTasks c owner reason keys) s := by
  induction keys generalizing s with
  | nil => exact .pure _
  | cons key keys ih =>
    unfold cancelTasks
    refine .getSt fun _ => ?_
    split
    · exact .throw _
    · exact .ite (fun _ => .bind (.emit (hA _ rfl) trivial trivial) fun _ _ => ih) fun _ => ih

end

/-! ### Choosing a rule -/

/-- The rule taken, or the one that failed, is found at its number. -/
theorem pickRule_index (x : Ext) (n : Node) (env : Env) : ∀ (i : Nat) (rs : List Rule) (dflt : Option (Nat × Rule)),
    (∀ j r, pickRule x n env i rs dflt = .rule j r → (i ≤ j ∧ rs[j - i]? = some r) ∨ dflt = some (j, r)) ∧
    ∀ j r e, pickRule x n env i rs dflt = .failed j r e → i ≤ j ∧ rs[j - i]? = some r
  | i, [], dflt => by
    cases dflt <;> simp [pickRule]
  | i, r :: rs, dflt => by
    -- a rule further down has a number beyond `i`
    have hlater : ∀ {j : Nat} {r' : Rule}, i + 1 ≤ j ∧ rs[j - (i + 1)]? = some r' → i ≤ j ∧ (r :: rs)[j - i]? = some r' := by
      rintro j r' ⟨hij, hget⟩
      have hj : j - i = (j - (i + 1)) + 1 := by omega
      refine ⟨by omega, ?_⟩
      rw [hj, List.getElem?_cons_succ]
      exact hget
    have hhere : i ≤ i ∧ (r :: rs)[i - i]? = some r := by simp
    unfold pickRule
    split
    · obtain ⟨hrule, hfail⟩ := pickRule_index x n env (i + 1) rs (some (i, r))
      refine ⟨fun j r' h => .inl ?_, fun j r' e h => hlater (hfail j r' e h)⟩
      rcases hrule j r' h with hl | hd
      · exact hlater hl
      · simp only [Option.some.injEq, Prod.mk.injEq] at hd
        obtain ⟨rfl, rfl⟩ := hd
        exact hhere
    · obtain ⟨hrule, hfail⟩ := pickRule_index x n env (i + 1) rs dflt
      have hrest : (∀ j r', pickRule x n env (i + 1) rs dflt = .rule j r' →
          (i ≤ j ∧ (r :: rs)[j - i]? = some r') ∨ dflt = some (j, r')) ∧
          ∀ j r' e, pickRule x n env (i + 1) rs dflt = .failed j r' e → i ≤ j ∧ (r :: rs)[j - i]? = some r' :=
        ⟨fun j r' h => (hrule j r' h).imp_left hlater, fun j r' e h => hlater (hfail j r' e h)⟩
      split
      · split
        · refine ⟨fun j r' h => (by cases h), fun j r' e h => ?_⟩
          cases h
          exact hhere
        · exact hrest
      · refine ⟨fun j r' h => ?_, fun j r' e h => (by cases h)⟩
        cases h
        exact .inl hhere
      · exact hrest

section
variable {c : Ctx} {A : Payload → Prop} {s : State} (hA : ∀ p : Payload, p.reacts = true → A p)
variable {k : String → DecM Unit} (hk : ∀ {id : String} {s : State}, Enterable c.fl id → Behaves c A (k id) s)
include hA

/-! ### Entering and leaving nodes -/

theorem startBranches_behaves {fan : String} {nd : Node} (hn : c.fl.node fan = some nd) (ht : nd.type = .fanout)
    {bs : List String} (hb : ∀ b ∈ bs, b ∈ nd.branches)
    (hbn : ∀ b ∈ bs, ∃ bn, c.fl.node b = some bn ∧ (bn.type = .task ∨ bn.type = .subflow)) :
    Behaves c A (startBranches c fan bs) s := by
  induction bs generalizing s with
  | nil => exact .pure _
  | cons b bs ih =>
    obtain ⟨bn, hget, hty⟩ := hbn b List.mem_cons_self
    refine .bind (.emit (hA _ rfl) (.inr (.inl ⟨fan, nd, hn, ht, hb b List.mem_cons_self⟩)) trivial) fun _ s' => ?_
    rw [hget]
    have hid : c.fl.node bn.id = some bn := (Flow.node_id hget).symm ▸ hget
    have hrest : ∀ s', Behaves c A (do
        let s ← getSt
        if s.status.terminal then pure () else startBranches c fan bs) s' :=
      fun s' => .getSt fun _ => .ite (fun _ => .pure _) fun _ =>
        ih (fun b hm => hb b (List.mem_cons_of_mem _ hm)) fun b hm => hbn b (List.mem_cons_of_mem _ hm)
    refine .ite (fun hs => .bind (startChild_behaves (working hA) ⟨bn, hid, by rw [hs]; rfl⟩ _ _ _ _) fun _ => hrest) fun hs => ?_
    exact .bind (schedule_behaves (working hA) ⟨bn, hid, by rw [hty.resolve_right hs]; rfl⟩ _ _ _ _ _ _ _) fun _ => hrest

variable {n : Node} {t : Task}

theorem fanout_behaves (wf : WellFormed c.fl) (hn : c.fl.node n.id = some n) (ht : n.type = .fanout) :
    Behaves c A (fanout c n) s := by
  have hfan := wf.fan hn ht
  obtain ⟨jn, hjo, hjn, hjt, -⟩ := hfan.join
  refine .bind (.emit (hA _ rfl) ?_ trivial) fun _ s' => startBranches_behaves hA hn ht (fun _ hb => hb) hfan.branch
  exact ⟨jn, by rw [hjo]; exact hjn, by rw [hjt]; rfl⟩

include hk

theorem advance_behaves {dyn : String}
    (hn : ∀ next, next = (if dyn = "" then n.next else dyn) → next ≠ "" → Enterable c.fl next) :
    Behaves c A (advance c k n dyn) s :=
  .ite (fun _ => complete0_behaves (working hA)) fun hne => hk (hn _ rfl hne)

variable (wf : WellFormed c.fl)

include wf

theorem leave_behaves (hn : c.fl.node n.id = some n) (ht : n.type ≠ .fanout) :
    Behaves c A (advance c k n "") s :=
  advance_behaves hA hk fun next he hne => by
    simp only [if_true] at he
    subst he
    exact wf.next hn ht hne

theorem mapProgress_behaves (hn : c.fl.node n.id = some n) (ht : n.type = .map) :
    Behaves c A (mapProgress c k n) s := by
  refine .getSt fun _ => ?_
  split
  · exact .throw _
  · refine .ite (fun _ => .bind (.emit (hA _ rfl) trivial trivial) fun _ s' => ?_) fun _ => mapLoop_behaves (working hA) hn ht _ _ _
    exact leave_behaves hA hk wf hn (by rw [ht]; nofun)

theorem mapStart_behaves (hn : c.fl.node n.id = some n) (ht : n.type = .map) :
    Behaves c A (mapStart c k n) s := by
  have hexpr : ∀ {msg : String} {s : State}, Behaves c A (fail c "expression_error" msg n.id) s :=
    fail_behaves (working hA) (fun h => by simp at h)
  refine .getSt fun _ => ?_
  split
  · exact hexpr
  · refine .ite (fun _ => hexpr) fun _ => ?_
    split
    · exact .throw _
    · exact .bind (.emit (hA _ rfl) ⟨n, hn, by rw [ht]; rfl⟩ trivial) fun _ s' => mapProgress_behaves hA hk wf hn ht

theorem consume_behaves (hn : c.fl.node n.id = some n) (ht : n.type = .await) :
    Behaves c A (consume c k n) s := by
  refine .getSt fun _ => ?_
  split
  · exact .pure _
  · rename_i b hb
    have hname : b.name = n.signal := by simpa using List.find?_some hb
    refine .bind (.emit (hA _ rfl) ⟨b, n, ?_, rfl, hn, hname.symm⟩ trivial) fun _ s' => ?_
    · rw [← hname] at hb
      exact hb
    · exact leave_behaves hA hk wf hn (by rw [ht]; nofun)

theorem await_behaves (hn : c.fl.node n.id = some n) (ht : n.type = .await) :
    Behaves c A (await c k n) s := by
  refine .getSt fun _ => .bind (.emit (hA _ rfl) ⟨n, hn, by rw [ht]; rfl⟩ trivial) fun _ s₁ => ?_
  exact .bind (.emit (hA _ rfl) trivial trivial) fun _ s₂ => consume_behaves hA hk wf hn ht

theorem choose_behaves (hn : c.fl.node n.id = some n) : Behaves c A (choose c k n) s := by
  refine .getSt fun _ => ?_
  obtain ⟨hrule, hfail⟩ := pickRule_index c.x n (s.env none) 0 n.rules none
  split
  · rename_i i r hr
    have hget : n.rules[i]? = some r := by simpa using (hrule i r hr).resolve_right (by simp)
    refine .bind (.emit (hA _ rfl) ⟨n, r, hn, hget, rfl, .inl rfl⟩ trivial) fun _ s' => ?_
    exact .ite (fun _ => complete0_behaves (working hA)) fun hend => hk (wf.rule hn (List.mem_of_getElem? hget) hend)
  · rename_i i r err hr
    have hget : n.rules[i]? = some r := by simpa using hfail i r err hr
    refine .bind (.emit (hA _ rfl) ⟨n, r, hn, hget, rfl, .inr rfl⟩ trivial) fun _ s' => ?_
    exact fail_behaves (working hA) (fun h => by simp at h)
  · exact .throw _

/-- What comes after the entry is counted. -/
theorem entered_behaves (hn : c.fl.node n.id = some n) (hty : n.type.enterable = true) (id : String) :
    Behaves c A (match n.type with
    | .task => schedule c n n.id "" 0 none {} 0 1
    | .choice => choose c k n
    | .fanout => fanout c n
    | .await => await c k n
    | .map => mapStart c k n
    | .subflow => startChild c n n.id "" 0 none
    | .join => fail c "error" ("node " ++ c.x.quote id ++ " of type join cannot be entered") id
    | .unknown t => fail c "error" ("node " ++ c.x.quote id ++ " of type " ++ t ++ " cannot be entered") id) s := by
  cases ht : n.type with
  | task => exact schedule_behaves (working hA) ⟨n, hn, by rw [ht]; rfl⟩ _ _ _ _ _ _ _
  | choice => exact choose_behaves hA hk wf hn
  | fanout => exact fanout_behaves hA wf hn ht
  | await => exact await_behaves hA hk wf hn ht
  | map => exact mapStart_behaves hA hk wf hn ht
  | subflow => exact startChild_behaves (working hA) ⟨n, hn, by rw [ht]; rfl⟩ _ _ _ _
  | join => rw [ht] at hty; cases hty
  | unknown t => rw [ht] at hty; cases hty

theorem enterStep_behaves {id : String} (he : Enterable c.fl id) :
    Behaves c A (enterStep c k id) s := by
  obtain ⟨n, hn, hty⟩ := he
  have hid : c.fl.node n.id = some n := (Flow.node_id hn).symm ▸ hn
  refine .getSt fun _ => ?_
  rw [hn]
  refine .ite (fun _ => fail_behaves (working hA) (fun h => by simp at h)) fun hroom => ?_
  refine .bind (.emit (hA _ rfl) (.inl ?_) trivial) fun _ s' => entered_behaves hA hk wf hid hty id
  omega

omit hk

theorem enterFuel_behaves (f : Nat) {id : String} (he : Enterable c.fl id) :
    Behaves c A (enterFuel c f id) s := by
  induction f generalizing id s with
  | zero => exact enterStep_behaves hA (fun _ => .throw _) wf he
  | succ f ih => exact enterStep_behaves hA ih wf he

theorem enter_behaves {id : String} {s : State} (he : Enterable c.fl id) :
    Behaves c A (enter c id) s :=
  .getSt fun _ => enterFuel_behaves hA wf _ he

/-! ### Settling -/

theorem closeJoin_behaves {join : Node} (hj : c.fl.node join.id = some join)
    (ht : join.type = .join) (fan : String) (succeeded failed : List String) (ok : Bool) :
    Behaves c A (closeJoin c fan join succeeded failed ok) s := by
  refine .getSt fun _ => .bind (cancelTasks_behaves (working hA) _ _ _) fun _ s₁ => .getSt fun _ => ?_
  refine .bind (.emit (hA _ rfl) (.inr (.inr ⟨join, hj, by rw [ht]; rfl⟩)) trivial) fun _ s₂ => ?_
  refine .bind (.emit (hA _ rfl) trivial trivial) fun _ s₃ => ?_
  refine .ite (fun _ => leave_behaves hA (enter_behaves hA wf) wf hj (by rw [ht]; nofun)) fun _ => ?_
  refine .ite (fun hne => enter_behaves hA wf (wf.onFailure hj hne)) fun _ => ?_
  exact fail_behaves (working hA) (fun h => by simp at h)

theorem evalJoin_behaves (fan : String) : Behaves c A (evalJoin c fan) s := by
  refine .getSt fun hs => ?_
  split
  · exact .throw _
  · rename_i f hf
    split
    · exact .throw _
    · rename_i join hj
      obtain ⟨jn, hjn, hjt⟩ := hs.fan hf
      obtain rfl : jn = join := Option.some.inj (hjn.symm.trans hj)
      have hid : c.fl.node jn.id = some jn := (Flow.node_id hj).symm ▸ hj
      simp only
      split
      · exact .pure _
      · exact closeJoin_behaves hA wf hid (by simpa [NodeType.isJoin] using hjt) _ _ _ _

theorem abortMap_behaves (hn : c.fl.node n.id = some n) (hf : n.onFailure ≠ "")
    (index : Nat) : Behaves c A (abortMap c n index) s := by
  refine .getSt fun _ => .bind (cancelTasks_behaves (working hA) _ _ _) fun _ s₁ => .getSt fun _ => ?_
  exact .bind (.emit (hA _ rfl) trivial trivial) fun _ s₂ => enter_behaves hA wf (wf.onFailure hn hf)

/-- Where an instance of node `n` is done: its owner goes on, or the execution does. -/
theorem afterSettle_behaves {dyn : String} (hn : c.fl.node t.node = some n)
    (ht : n.type.runs = true) (hd : dyn ≠ "" → Enterable c.fl dyn) : Behaves c A (afterSettle c t n dyn) s := by
  have hid : n.id = t.node := Flow.node_id hn
  have hself : c.fl.node n.id = some n := hid.symm ▸ hn
  refine .getSt fun hs => .ite (fun _ => .pure _) fun _ => ?_
  refine .ite (fun _ => evalJoin_behaves hA wf _) fun _ => ?_
  refine .ite (fun hm => ?_) fun _ => ?_
  · rw [← hm.2, ← hid] at hm
    exact mapProgress_behaves hA (enter_behaves hA wf) wf hself (hs.of_map hself hm.1)
  · refine advance_behaves hA (enter_behaves hA wf) fun next he hne => ?_
    split at he
    · exact he ▸ wf.next hn (fun hf => by rw [hf] at ht; cases ht) (he ▸ hne)
    · exact he ▸ hd ‹_›

/-- What follows a failed attempt within the budget. -/
theorem retryOrSettle_behaves (hn : c.fl.node t.node = some n)
    (ht : c.fl.Has NodeType.runs t.node) (msg reason : String) (willRetry : Bool) :
    Behaves c A (if willRetry then
    let delay := n.backoff (t.attempt + 1)
    if delay ≤ 0 then schedule c n t.key t.owner t.index t.item t.resumption t.generation (t.attempt + 1)
    else timerAt c .retry delay t.key t.node t.generation (t.attempt + 1)
    else do
    let s ← getSt
    if (s.fans[t.owner]?).isSome then evalJoin c t.owner
    else if n.onFailure ≠ "" then
    if (s.maps[t.owner]?).isSome ∧ t.node = t.owner then abortMap c n t.index
    else enter c n.onFailure
    else fail c reason ("node " ++ c.x.quote t.node ++ " failed: " ++ msg) t.node) s := by
  have hid : n.id = t.node := Flow.node_id hn
  refine .ite (fun _ => ?_) fun _ => ?_
  · refine .ite (fun _ => schedule_behaves (working hA) (hid.symm ▸ ht) _ _ _ _ _ _ _) fun _ => timerAt_behaves (working hA) _ _ _ _ _ _
  · refine .getSt fun hs => .ite (fun _ => evalJoin_behaves hA wf _) fun _ => ?_
    refine .ite (fun hne => ?_) fun _ => fail_behaves (working hA) fun _ => ht.enterable
    exact .ite (fun _ => abortMap_behaves hA wf (hid.symm ▸ hn) hne _) fun _ => enter_behaves hA wf (wf.onFailure hn hne)

theorem taskFailed_behaves (hF : ∀ d, A (.nodeFail d))
    (ht : c.fl.Has NodeType.runs t.node) (msg : String) (retryable : Bool) (reason : String) (usage : SMap Rat) :
    Behaves c A (taskFailed c t msg retryable reason usage) s := by
  refine .nodeOf fun n hn => .getSt fun _ => .bind (.emit (hF _) trivial trivial) fun _ s₁ => ?_
  split
  · exact fail_behaves (working hA) (fun h => by simp at h)
  · exact retryOrSettle_behaves hA wf hn ht _ _ _

end

/-- The events that add to the counters. -/
def Payload.counts : Payload → Bool
  | .nodeDone _ | .nodeFail _ | .interrupted _ | .childDone _ => true
  | _ => false

theorem reacting {A : Payload → Prop} (hA : ∀ p : Payload, p.counts = false → p.ordinary = true → A p) :
    ∀ p : Payload, p.reacts = true → A p := by
  intro p hp
  refine hA p ?_ ?_ <;> cases p <;> first | rfl | cases hp

/-! ### Commands -/

section
variable {c : Ctx} {A : Payload → Prop} {s : State} (hA : ∀ p : Payload, p.counts = false → p.ordinary = true → A p)
include hA

theorem resume_behaves (p : Cmd.ResumeData) : Behaves c A (resume c p) s := by
  refine .getSt fun hs => ?_
  split
  · exact .pure _
  · rename_i k t hfind
    have hget : s.tasks[k]? = some t := Std.ExtTreeMap.mem_toList_iff_getElem?_eq_some.1 (List.mem_of_find?_eq_some hfind)
    refine .nodeOf fun n hn => schedule_behaves (working (reacting hA)) ?_ _ _ _ _ _ _ _
    exact (Flow.node_id hn).symm ▸ hs.task hget

theorem signal_behaves (wf : WellFormed c.fl) (p : Cmd.SignalData) : Behaves c A (signal c p) s := by
  have hR := reacting hA
  unfold signal
  split
  · exact .throw _
  · refine .getSt fun _ => .ite (fun _ => .pure _) fun _ => .bind (.emit (hA _ rfl rfl) trivial trivial) fun _ s₁ => ?_
    refine .getSt fun hs => ?_
    split
    · exact .pure _
    · rename_i node a hfind
      have hget : s₁.awaits[node]? = some a :=
        Std.ExtTreeMap.mem_toList_iff_getElem?_eq_some.1 (List.mem_of_find?_eq_some hfind)
      refine .nodeOf fun n hn => consume_behaves hR (enter_behaves hR wf) wf ((Flow.node_id hn).symm ▸ hn) ?_
      simpa [NodeType.isAwait] using (hs.await hget).type hn

theorem awaitTimeout_behaves (wf : WellFormed c.fl) (tm : Timer) : Behaves c A (awaitTimeout c tm) s := by
  have hR := reacting hA
  refine .getSt fun hs => ?_
  split
  · exact .pure _
  · refine .ite (fun _ => ?_) fun _ => .pure _
    refine .nodeOf fun n hn => .bind (.emit (hA _ rfl rfl) trivial trivial) fun _ s₁ => ?_
    refine .ite (fun _ => fail_behaves (working hR) (fun h => by simp at h)) fun hne => ?_
    exact enter_behaves hR wf (wf.onTimeout hn hne)

theorem update_behaves (writes : SMap Json) : Behaves c A (update c writes) s := by
  refine .getSt fun _ => .ite (fun _ => .throw _) fun _ => .ite (fun _ => .pure _) fun _ => ?_
  split
  · exact .throw _
  · rename_i u hw
    exact .emit (hA _ rfl rfl) hw trivial

theorem cancel_behaves (p : Cmd.CancelData) : Behaves c A (cancel c p) s :=
  .getSt fun _ => .getAux fun _ => .emit (hA _ rfl rfl) trivial trivial

theorem start_behaves (wf : WellFormed c.fl) (p : Cmd.StartData) : Behaves c A (start c p) s := by
  have hR := reacting hA
  refine .getSt fun _ => .ite (fun _ => ?_) fun _ => ?_
  · split
    · exact .pure _
    · exact .throw _
  · simp only
    refine .ite (fun _ => ?_) fun _ => .throw _
    split
    · exact .throw _
    · exact .bind (.emit (hA _ rfl rfl) trivial trivial) fun _ s₁ => enter_behaves hR wf wf.start

end

/-- A fork's event holds the state of a source that meets `P`. -/
def Payload.ForkOf (P : State → Prop) : Payload → Prop
  | .forked d => ∃ src, P src ∧ d.state = src.marshal
  | _ => True

theorem Payload.ForkOf.ordinary {P : State → Prop} {p : Payload} (h : p.ordinary = true) : p.ForkOf P := by
  cases p with
  | forked d => cases h
  | _ => trivial

theorem Payload.ForkOf.mono {P Q : State → Prop} {p : Payload} (h : p.ForkOf P) (hPQ : ∀ src, P src → Q src) : p.ForkOf Q := by
  cases p with
  | forked d => exact h.imp fun src hs => ⟨hPQ src hs.1, hs.2⟩
  | _ => trivial

section
variable {c : Ctx} {A : Payload → Prop} {s : State}

variable {ch : ChildState}

theorem child_of_find {p : String × ChildState → Bool} {key : String}
    (h : s.children.toList.find? p = some (key, ch)) : s.children[key]? = some ch :=
  Std.ExtTreeMap.mem_toList_iff_getElem?_eq_some.1 (List.mem_of_find?_eq_some h)

theorem Flow.Has.nodeOf {p : NodeType → Bool} {key : String} (wf : WellFormed c.fl) (h : c.fl.Has p ch.node) :
    ch.nodeOf key = ch.node := by
  obtain ⟨nd, hnd, -⟩ := h
  simp [ChildState.nodeOf, wf.id_ne hnd]

/-- What follows the end of a child within the budget. -/
theorem afterChild_behaves (hR : ∀ p : Payload, p.reacts = true → A p) (wf : WellFormed c.fl) (hs : s.work.Fits c.fl)
    (hhas : c.fl.Has NodeType.delegates ch.node) (ok : Bool) (itemFailed failed : String) :
    Behaves c A (nodeOf c ch.node >>= fun n =>
    if (s.fans[ch.owner]?).isSome then evalJoin c ch.owner
    else if (s.maps[ch.owner]?).isSome ∧ ch.owner = ch.node then
    if ok then mapProgress c (enter c) n
    else if n.onFailure ≠ "" then abortMap c n ch.index
    else fail c "child_failed" itemFailed ch.node
    else if ok then advance c (enter c) n ""
    else if n.onFailure ≠ "" then enter c n.onFailure
    else fail c "child_failed" failed ch.node) s := by
  refine .nodeOf fun n hn => ?_
  have hid : n.id = ch.node := Flow.node_id hn
  have hself : c.fl.node n.id = some n := hid.symm ▸ hn
  have hty : n.type ≠ .fanout := fun hf => by
    have := hhas.type hn
    rw [hf] at this
    cases this
  refine .ite (fun _ => evalJoin_behaves hR wf _) fun _ => .ite (fun hm => ?_) fun _ => ?_
  · rw [hm.2, ← hid] at hm
    refine .ite (fun _ => mapProgress_behaves hR (enter_behaves hR wf) wf hself (hs.of_map hself hm.1)) fun _ => ?_
    refine .ite (fun hne => abortMap_behaves hR wf hself hne _) fun _ => fail_behaves (working hR) (fun h => by simp at h)
  · refine .ite (fun _ => leave_behaves hR (enter_behaves hR wf) wf hself hty) fun _ => ?_
    refine .ite (fun hne => enter_behaves hR wf (wf.onFailure hn hne)) fun _ => fail_behaves (working hR) (fun h => by simp at h)

end

section
variable {c : Ctx} {A : Payload → Prop} {s : State} (hA : ∀ p : Payload, p.ordinary = true → A p)

theorem current_behaves {ref : Cmd.TaskRef} {f : Task → DecM Unit}
    (h : ∀ t, current s ref = some t → c.fl.Has NodeType.runs t.node → Behaves c A (f t) s) (hs : s.work.Fits c.fl) :
    Behaves c A (match current s ref with | none => pure () | some t => f t) s := by
  cases hc : current s ref with
  | none => exact .pure _
  | some t => exact h t hc (hs.task (current_some hc).1)

include hA

theorem complete_behaves (wf : WellFormed c.fl) (p : Cmd.CompleteData) : Behaves c A (complete c p) s := by
  refine .getSt fun hs => current_behaves (fun t hc ht => .nodeOf fun n hn => ?_) hs
  simp only
  split
  · exact taskFailed_behaves (reacting fun p _ => hA p) wf (fun _ => hA _ rfl) ht _ _ _ _
  · rename_i hcheck
    obtain ⟨u, hw, hdyn⟩ := checkCompletion_none hcheck
    refine .bind (.emit (hA _ rfl) hw trivial) fun _ s₁ => .getSt fun _ => ?_
    split
    · exact fail_behaves (working (reacting fun p _ => hA p)) (fun h => by simp at h)
    · refine afterSettle_behaves (reacting fun p _ => hA p) wf hn (ht.type hn) fun hne => ?_
      exact wf.dynamic hn (by simpa [Node.allowsDynamic] using (hdyn hne).2)

theorem failTask_behaves (wf : WellFormed c.fl) (p : Cmd.FailData) : Behaves c A (failTask c p) s :=
  .getSt fun hs => current_behaves (fun _ _ ht => taskFailed_behaves (reacting fun p _ => hA p) wf (fun _ => hA _ rfl) ht _ _ _ _) hs

theorem interrupt_behaves (p : Cmd.InterruptData) : Behaves c A (interrupt c p) s := by
  refine .getSt fun hs => current_behaves (fun t _ _ => .bind (.emit (hA _ rfl) trivial trivial) fun _ s₁ => .getSt fun _ => ?_) hs
  split
  · exact fail_behaves (working (reacting fun p _ => hA p)) (fun h => by simp at h)
  · exact .pure _

theorem timer_behaves (wf : WellFormed c.fl) (p : Cmd.TimerData) : Behaves c A (timer c p) s := by
  refine .getSt fun _ => ?_
  split
  · exact .pure _
  · refine .bind (.emit (hA _ rfl) trivial trivial) fun _ s₁ => .getSt fun hs => ?_
    split
    · split
      · exact .pure _
      · rename_i t ht
        refine .ite (fun _ => .nodeOf fun n hn => ?_) fun _ => .pure _
        exact schedule_behaves (working (reacting fun p _ => hA p)) ((Flow.node_id hn).symm ▸ hs.task ht) _ _ _ _ _ _ _
    · exact current_behaves (fun _ _ ht => taskFailed_behaves (reacting fun p _ => hA p) wf (fun _ => hA _ rfl) ht _ _ _ _) hs
    · exact awaitTimeout_behaves (fun p _ => hA p) wf _

theorem childDone_behaves (wf : WellFormed c.fl) (p : Cmd.ChildDoneData) : Behaves c A (childDone c p) s := by
  have hR := reacting fun p _ => hA p
  refine .getSt fun hs => ?_
  split
  · exact .pure _
  · rename_i key ch hfind
    have hhas := hs.child (child_of_find hfind)
    rw [hhas.nodeOf wf]
    refine .bind (.emit (hA _ rfl) trivial trivial) fun _ s₁ => .getSt fun hs₁ => ?_
    split
    · exact fail_behaves (working hR) (fun h => by simp at h)
    · exact afterChild_behaves hR wf hs₁ hhas _ _ _

/-- **Every command keeps to what is due.** -/
theorem decideData_behaves (wf : WellFormed c.fl) (d : CmdData) : Behaves c A (decideData c d) s := by
  cases d with
  | start p => exact start_behaves (fun p _ => hA p) wf p
  | complete p => exact complete_behaves hA wf p
  | fail p => exact failTask_behaves hA wf p
  | interrupt p => exact interrupt_behaves hA p
  | resume p => exact resume_behaves (fun p _ => hA p) p
  | signal p => exact signal_behaves (fun p _ => hA p) wf p
  | cancel p => exact cancel_behaves (fun p _ => hA p) p
  | timer p => exact timer_behaves hA wf p
  | childDone p => exact childDone_behaves hA wf p
  | update writes => exact update_behaves (fun p _ => hA p) writes
  | undecodable t e => exact .throw _
  | operational t => exact .throw _

end

/-! ### Forks -/

section
variable {c : Ctx} {A : Payload → Prop} {s : State} (hA : ∀ p : Payload, p.counts = false → p.ordinary = true → A p)
include hA

theorem rekickTasks_behaves (keys : List String) : Behaves c A (rekickTasks c keys) s := by
  induction keys generalizing s with
  | nil => exact .pure _
  | cons key keys ih =>
    unfold rekickTasks
    refine .getSt fun hs => ?_
    split
    · exact .throw _
    · rename_i t ht
      refine .ite (fun _ => ih) fun _ => .nodeOf fun n hn => .bind ?_ fun _ _ => ih
      refine schedule_behaves (working (reacting hA)) ?_ _ _ _ _ _ _ _
      exact (Flow.node_id hn).symm ▸ hs.task ht

theorem rekickAwaits_behaves (wf : WellFormed c.fl) {nodes : List String}
    (hnodes : ∀ node ∈ nodes, c.fl.Has NodeType.isAwait node) : Behaves c A (rekickAwaits c nodes) s := by
  have hR := reacting hA
  induction nodes generalizing s with
  | nil => exact .pure _
  | cons node nodes ih =>
    refine .nodeOf fun n hn => .bind (await_behaves hR (enter_behaves hR wf) wf ((Flow.node_id hn).symm ▸ hn) ?_) fun _ _ =>
      ih fun node hm => hnodes node (List.mem_cons_of_mem _ hm)
    simpa [NodeType.isAwait] using (hnodes node List.mem_cons_self).type hn

theorem rekickChildren_behaves (wf : WellFormed c.fl) (keys : List String) : Behaves c A (rekickChildren c keys) s := by
  induction keys generalizing s with
  | nil => exact .pure _
  | cons key keys ih =>
    unfold rekickChildren
    refine .getSt fun hs => .ite (fun _ => .pure _) fun _ => ?_
    split
    · exact .throw _
    · rename_i ch hch
      have hhas := hs.child hch
      rw [hhas.nodeOf wf]
      refine .nodeOf fun n hn => .bind ?_ fun _ _ => ih
      exact startChild_behaves (working (reacting hA)) ((Flow.node_id hn).symm ▸ hhas) _ _ _ _

theorem rekick_behaves (wf : WellFormed c.fl) : Behaves c A (rekick c) s := by
  refine .getSt fun _ => .bind (rekickTasks_behaves hA _) fun _ s₁ => .getSt fun hs₁ => ?_
  refine .bind (rekickAwaits_behaves hA wf fun node hm => ?_) fun _ s₂ =>
    .getSt fun _ => .setAux (rekickChildren_behaves hA wf _)
  obtain ⟨a, ha⟩ := get_of_mem (Std.ExtTreeMap.mem_keys.1 hm)
  exact hs₁.await ha

theorem forkProg_behaves (wf : WellFormed c.fl) {src : State} (hsrc : src.work.Fits c.fl)
    (hF : ∀ d : Event.Forked, d.state = src.marshal → A (.forked d)) (source : String) (seq : Nat) (writes : SMap Json) :
    Behaves c A (forkProg c src source seq writes) s := by
  have hfits : (unmarshal src.marshal).work.Fits c.fl := by
    show src.encoded.work.Fits c.fl
    rw [State.work_encoded]
    exact hsrc
  refine .getSt fun _ => .bind (.emit (hF _ rfl) hfits trivial) fun _ s₁ => .getSt fun _ => ?_
  refine .ite (fun _ => .ite (fun _ => .pure _) fun _ => rekick_behaves hA wf) fun _ => .ite (fun _ => .throw _) fun _ => ?_
  split
  · exact .throw _
  · rename_i u hw
    exact .bind (.emit (hA _ rfl rfl) hw trivial) fun _ s₂ => rekick_behaves hA wf

end

/-! ## Whole decisions -/

section
variable {x : Ext} {fl : Flow} {s : State} {evs : List Event} {now : Time}

/-- What every decision keeps to; `source` is the state it forks, if it does. -/
structure Duly (x : Ext) (fl : Flow) (source : Option State) (s : State) (ev : Event) : Prop where
  due : ev.data.Due x fl s
  fork : ev.data.ForkOf fun src => source = some src

/-- What a decided command or fork keeps to. -/
structure Decided (x : Ext) (fl : Flow) (source : Option State) (s : State) (ev : Event) : Prop extends
    Duly x fl source s ev where
  blames : ev.data.Blames fl

theorem Ask.decided (wf : WellFormed fl) (hs : s.work.Fits fl) {a : Ask} (hsrc : ∀ src, a.source = some src → src.work.Fits fl)
    (hok : (a.decide x fl s now).result = .ok evs) :
    Path (State.apply x.quote fl) (Decided x fl a.source) s evs (a.decide x fl s now).state := by
  have hruns : ∀ {cmdID : String} {m : DecM Unit},
      Behaves ⟨x, fl, now, cmdID⟩ (Payload.ForkOf fun src => a.source = some src) m s → (runDecision m s).result = .ok evs →
      Path (State.apply x.quote fl) (Decided x fl a.source) s evs (runDecision m s).state := fun hm hok =>
    ((Runs.decision (hm hs) hok).1).mono fun _ _ h => ⟨⟨h.due, h.kind⟩, h.blames⟩
  cases a with
  | command cmd =>
    simp only [Ask.decide] at hok ⊢
    rcases decide_cases x fl s cmd now with h | h | ⟨e, h⟩
    · rw [h] at hok ⊢
      exact hruns (decideData_behaves (fun _ => .ordinary) wf _) hok
    · rw [h] at hok ⊢
      cases hok
      exact .nil s
    · rw [h] at hok
      cases hok
  | fork src source seq cmdID writes =>
    simp only [Ask.decide, decideFork] at hok ⊢
    split at hok
    · rename_i hex
      cases hok
      rw [if_pos hex]
      exact .nil s
    · rename_i hex
      rw [if_neg hex]
      exact hruns (forkProg_behaves (fun _ _ => .ordinary) wf (hsrc src rfl) (fun _ hd => ⟨src, rfl, hd⟩) source seq writes) hok

theorem abort_duly {source : Option State} {first : Option Event} (hf : ∀ ev, first = some ev → Duly x fl source s ev) (cmdID reason msg : String)
    (hok : (abort x fl s first cmdID reason msg now).result = .ok evs) :
    Path (State.apply x.quote fl) (Duly x fl source) s evs (abort x fl s first cmdID reason msg now).state := by
  have hfail : ∀ s, Runs (Ctx.apply ⟨x, fl, now, cmdID⟩) (Duly x fl source) (fun _ => True)
      (fail ⟨x, fl, now, cmdID⟩ reason msg "") s fun _ _ => True :=
    fun s => Runs.getSt (Runs.getAux fun _ => Runs.emitAny ⟨trivial, trivial⟩ (fun _ _ => trivial) fun _ _ => trivial)
  refine (Runs.decision (Q := fun _ _ => True) (B := fun _ => True) (c := ⟨x, fl, now, cmdID⟩) ?_ hok).1
  refine Runs.getSt ?_
  split
  · split
    · exact Runs.pure trivial
    · exact hfail s
  · split
    · exact Runs.throw trivial
    · rename_i ev
      have hemit : Runs (Ctx.apply ⟨x, fl, now, cmdID⟩) (Duly x fl source) (fun _ => True)
          (emit ⟨x, fl, now, cmdID⟩ ev.data) s fun _ _ => True :=
        Runs.emitAny ⟨(hf ev rfl).due, (hf ev rfl).fork⟩ (fun _ _ => trivial) fun _ _ => trivial
      refine hemit.bind fun _ s₁ _ => Runs.getSt ?_
      split
      · exact Runs.pure trivial
      · exact hfail s₁

variable {req : Request} {s' : State} {log : List (List Event)} {ev : Event}

/-- **Every decision keeps to what is due.** -/
theorem perform_duly (wf : WellFormed fl) (hs : s.work.Fits fl)
    (hsrc : ∀ src, req.source = some src → src.work.Fits fl) (hok : (req.perform x fl s now).result = .ok evs) :
    Path (State.apply x.quote fl) (Duly x fl req.source) s evs (req.perform x fl s now).state := by
  cases req with
  | ask a => exact (Ask.decided wf hs hsrc hok).mono fun _ _ h => h.toDuly
  | continueAsNew seg cmdID =>
    simp only [Request.perform, Packtrail.continueAsNew] at hok ⊢
    split at hok
    · rename_i hno
      cases hok
      rw [if_pos hno]
      exact .nil s
    · rename_i hno
      rw [if_neg hno]
      refine (Runs.decision (Q := fun _ _ => True) (B := fun _ => True) (c := ⟨x, fl, now, cmdID⟩) ?_ hok).1
      refine Runs.emitAny ⟨?_, trivial⟩ (fun _ _ => trivial) fun _ _ => trivial
      show (State.work (State.encoded _)).Fits fl
      rw [State.work_encoded]
      show s.encoded.work.Fits fl
      rw [State.work_encoded]
      exact hs
  | abort a decided cmdID reason msg =>
    simp only [Request.perform] at hok ⊢
    cases hr : (a.decide x fl s decided).result with
    | error e => rw [hr] at hok; cases hok
    | ok evs₀ =>
      rw [hr] at hok
      cases evs₀ with
      | nil => cases hok; exact .nil s
      | cons ev₀ rest =>
        have hdec := Ask.decided wf hs hsrc hr
        refine abort_duly (fun ev he => ?_) cmdID reason msg hok
        split at he
        · cases he
        · cases he
          cases hdec with
          | cons guard _ _ => exact guard.toDuly

/-! ## Whole runs -/

theorem checkWrites_congr (h : s.channels = s'.channels) (ws : List (String × Json)) :
    checkWrites x fl s ws = checkWrites x fl s' ws := by
  induction ws with
  | nil => rfl
  | cons w ws ih =>
    obtain ⟨name, delta⟩ := w
    simp only [checkWrites, h, ih]

theorem Payload.Due.alike {p : Payload} (ha : s.Alike s') (h : p.Due x fl s) : p.Due x fl s' := by
  have hw : s.work = s'.work := ha.work
  have hch : s.channels = s'.channels := show s.core.channels = s'.core.channels from congrArg State.channels ha
  cases p with
  | entered d =>
    have hsteps : s.steps = s'.steps := congrArg Work.steps hw
    exact h.imp_left fun hlt => hsteps ▸ hlt
  | signalUse d =>
    have hbuf : s.buffered = s'.buffered := congrArg Work.buffered hw
    obtain ⟨b, nd, hfind, hrest⟩ := h
    exact ⟨b, nd, hbuf ▸ hfind, hrest⟩
  | nodeDone d => exact (checkWrites_congr hch _).symm.trans h
  | update d => exact (checkWrites_congr hch _).symm.trans h
  | _ => exact h

theorem Work.none_fits : Work.none.Fits fl := by
  have h := Work.none_idle
  refine ⟨fun hk => (h.no_task hk).elim, fun {k f} hk => ?_, fun {k m} hk => ?_, fun hk => (h.no_await hk).elim,
    fun hk => (h.no_child hk).elim⟩
  · rw [h.fans, get_empty] at hk; cases hk
  · rw [h.maps, get_empty] at hk; cases hk

theorem Path.fits (hs : s.work.Fits fl)
    (hp : Path (State.apply x.quote fl) (fun s ev => ev.data.Due x fl s) s evs s') : s'.work.Fits fl := by
  refine hp.invariant (I := fun s => s.work.Fits fl) (fun s ev s' hs hd ha => ?_) hs
  rw [State.apply_work ha]
  exact hs.step hd

theorem Reachable.fits (wf : WellFormed fl) (h : Reachable x fl s log) : s.work.Fits fl := by
  induction h with
  | new execID => exact Work.none_fits
  | step req now _ _ _ hok ih ihsrc => exact Path.fits ih ((perform_duly wf ih ihsrc hok).mono fun _ _ h => h.due)
  | reload _ ha ih => exact ha.work ▸ ih

/-- What an event of a log keeps to: a fork's source is an execution of the flow. -/
structure Upheld (x : Ext) (fl : Flow) (s : State) (ev : Event) : Prop where
  due : ev.data.Due x fl s
  fork : ev.data.ForkOf fun src => ∃ slog, Reachable x fl src slog

theorem Duly.kept (hsrc : req.Sourced x fl) (h : Duly x fl req.source s ev) : Upheld x fl s ev :=
  ⟨h.due, h.fork.mono fun src hs => (hsrc src hs).2⟩

/-- **What every decision keeps to.** -/
theorem Reachable.decision_kept (wf : WellFormed fl) (h : Reachable x fl s log)
    (hsrc : req.Sourced x fl) (hok : (req.perform x fl s now).result = .ok evs) :
    Path (State.apply x.quote fl) (Upheld x fl) s evs (req.perform x fl s now).state := by
  refine (perform_duly wf (h.fits wf) (fun src hs => ?_) hok).mono fun _ _ hd => hd.kept hsrc
  obtain ⟨-, slog, hr⟩ := hsrc src hs
  exact hr.fits wf

/-- **A log keeps to what is promised and to what is due.** -/
theorem Reachable.kept (wf : WellFormed fl) (h : Reachable x fl s log) :
    ∃ execID s₁, Path (State.apply x.quote fl) (fun s ev => Promise fl (baseOf log) s ev ∧ Upheld x fl s ev)
    (State.new execID) log.flatten s₁ ∧ s₁.Alike s :=
  h.path wf (fun ha hk => ⟨hk.due.alike ha, hk.fork⟩) fun hr hsrc hok => hr.decision_kept wf hsrc hok

/-- **What a decided event keeps, every reachable state has**: a fork brings the state of a source that has
it, a reload changes nothing `I` looks at. -/
theorem Reachable.invariant (wf : WellFormed fl) {I : State → Prop} (new : ∀ execID, I (State.new execID))
    (alike : ∀ {s s'}, s.Alike s' → I s → I s')
    (step : ∀ {s ev s' base}, I s → Promise fl base s ev → ev.data.Due x fl s → ev.data.ForkOf I →
    s.apply x.quote fl ev = .ok s' → I s')
    (h : Reachable x fl s log) : I s := by
  induction h with
  | new execID => exact new execID
  | reload _ ha ih => exact alike ha ih
  | @step s log slog evs req now h hsrc hex hok ih ihsrc =>
    have hduly := perform_duly wf (h.fits wf) (fun src hs => (hsrc src hs).fits wf) hok
    by_cases hne : evs = []
    · subst hne
      rw [hduly.eq_of_nil]
      exact ih
    · have hfrom : req.Sourced x fl := fun src hs => ⟨hex src hs, slog, hsrc src hs⟩
      have hwrote := ((h.tracked wf).wrote wf req (hfrom.ok wf) now hok hne).1
      refine (hwrote.and hduly).invariant (I := I) (fun s ev s' hi hg ha => ?_) ih
      exact step hi hg.1 hg.2.due (hg.2.fork.mono ihsrc) ha

/-! ## The log from its first event on

The first event brings the execution's id, so a log can be folded onto the empty state of any id. -/

theorem apply_renamed {execID id : String} {t : State} (hb : ev.data.begins = true)
    (ha : (State.new execID).apply x.quote fl ev = .ok t) : (State.new id).apply x.quote fl ev = .ok t := by
  obtain ⟨hidx, s₁, hd, rfl⟩ := State.apply_ok.1 ha
  refine State.apply_ok.2 ⟨?_, s₁, ?_, rfl⟩ <;> cases hev : ev.data <;> rw [hev] at hb <;> cases hb
  all_goals simp_all [State.expectedIndex, State.applyData, State.applyStarted, State.new]

theorem Upheld.renamed {base : Nat} {execID id : String} (hb : ev.data.begins = true)
    (h : Promise fl base (State.new execID) ev ∧ Upheld x fl (State.new execID) ev) :
    Promise fl base (State.new id) ev ∧ Upheld x fl (State.new id) ev := by
  obtain ⟨⟨hidx, hun, hbegin, hoffer⟩, hdue, hfork⟩ := h
  refine ⟨⟨hidx, hun, hbegin, ?_⟩, ?_, hfork⟩ <;> cases hev : ev.data <;> rw [hev] at hb hoffer hdue <;> cases hb <;> assumption

/-- **The log of a reachable state, folded from its first event on** into the empty state of any id. -/
theorem Reachable.writtenAs (wf : WellFormed fl) (h : Reachable x fl s log) (id : String) :
    ∃ s₁, Path (State.apply x.quote fl) (fun s ev => Promise fl (baseOf log) s ev ∧ Upheld x fl s ev) (State.new id)
    log.flatten s₁ ∧ ({ s₁ with execID := s.execID } : State).Alike s ∧ (log.flatten ≠ [] → s₁.execID = s.execID) := by
  obtain ⟨execID, s₁, hp, ha⟩ := h.kept wf
  have hid : s₁.execID = s.execID := show s₁.core.execID = s.core.execID from congrArg State.execID ha
  generalize log.flatten = evs at hp
  cases hp with
  | nil => exact ⟨_, .nil _, hid ▸ ha, fun hne => absurd rfl hne⟩
  | @cons _ s₂ _ ev rest guard ok hrest =>
    have hb : ev.data.begins = true := guard.1.begins.2 rfl
    refine ⟨s₁, .cons (Upheld.renamed hb guard) (apply_renamed hb ok) hrest, ?_, fun _ => hid⟩
    rw [← hid]
    exact ha

theorem Reachable.written (wf : WellFormed fl) (h : Reachable x fl s log) :
    ∃ s₁, Path (State.apply x.quote fl) (fun s ev => Promise fl (baseOf log) s ev ∧ Upheld x fl s ev) (State.new "")
    log.flatten s₁ ∧ ({ s₁ with execID := s.execID } : State).Alike s := by
  obtain ⟨s₁, hp, ha, -⟩ := h.writtenAs wf ""
  exact ⟨s₁, hp, ha⟩

end

end Packtrail
