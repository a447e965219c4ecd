import Packtrail.Ledger

/-
# Usage counters and budgets

Workers report usage with a completion, a failure or an interrupt, a child reports its counters when it ends, and
`addUsage` (`state.go`) adds them to the counters of the execution. After each of these events the decider compares the
counters with the budget (`overBudgetWith`, `decide.go:593-601`; a failing attempt is compared before the event, to decide
about a retry) and fails the execution when one is over.

**`budgets_hold`**: the counters are the sums of what the log records, and an unfinished execution is within its budget. The
counters are exact rationals here, floating point numbers in the source.
-/

namespace Packtrail

open Replay Emitter

/-! ## Sums -/

section
variable {m u : SMap Rat} {k : String}

theorem foldl_add_other {l : List (String × Rat)} (h : ∀ kv ∈ l, kv.1 ≠ k) :
    (l.foldl (fun m kv => m.insert kv.1 (m.getD kv.1 0 + kv.2)) m).getD k 0 = m.getD k 0 := by
  induction l generalizing m with
  | nil => rfl
  | cons kv l ih =>
    rw [List.foldl_cons, ih fun kv' hm => h kv' (List.mem_cons_of_mem _ hm), Std.ExtTreeMap.getD_insert]
    simp [h kv List.mem_cons_self]

/-- `addUsage` adds key by key. -/
theorem addAll_getD (m u : SMap Rat) (k : String) : (addAll m u).getD k 0 = m.getD k 0 + u.getD k 0 := by
  unfold addAll
  rw [Std.ExtTreeMap.foldl_eq_foldl_toList]
  cases hu : u[k]? with
  | none =>
    rw [Std.ExtTreeMap.getD_eq_getD_getElem? (t := u), hu, Option.getD_none, add_zero]
    refine foldl_add_other fun kv hm hk => ?_
    have hget := Std.ExtTreeMap.mem_toList_iff_getElem?_eq_some.1 hm
    rw [hk, hu] at hget
    cases hget
  | some v =>
    have hmem : (k, v) ∈ u.toList := Std.ExtTreeMap.mem_toList_iff_getElem?_eq_some.2 hu
    obtain ⟨l, r, hlr⟩ := List.append_of_mem hmem
    have hnodup : (u.toList.map Prod.fst).Nodup := by
      rw [Std.ExtTreeMap.map_fst_toList_eq_keys]
      exact Std.ExtTreeMap.nodup_keys
    rw [hlr, List.map_append, List.map_cons, List.nodup_append, List.nodup_cons] at hnodup
    have hl : ∀ kv ∈ l, kv.1 ≠ k := fun kv hm => hnodup.2.2 _ (List.mem_map_of_mem hm) _ List.mem_cons_self
    have hr : ∀ kv ∈ r, kv.1 ≠ k := fun kv hm he => hnodup.2.1.1 (List.mem_map.2 ⟨kv, hm, he⟩)
    rw [hlr, List.foldl_append, List.foldl_cons, foldl_add_other hr, Std.ExtTreeMap.getD_insert, foldl_add_other hl,
      Std.ExtTreeMap.getD_eq_getD_getElem? (t := u), hu]
    simp

end

/-- What an event adds to the counters; a fork starts with those of its source. -/
def Payload.usage : Payload → SMap Rat
  | .nodeDone d => d.usage
  | .nodeFail d => d.usage
  | .interrupted d => d.usage
  | .childDone d => d.counters
  | .forked d => (unmarshal d.state).counters
  | _ => ∅

/-- The usage of counter `k` recorded in a log. -/
def recorded (k : String) (evs : List Event) : Rat := (evs.map fun ev => ev.data.usage.getD k 0).sum

section
variable {x : Ext} {fl : Flow} {base : Nat} {l : List Event} {s s' : State} {ev : Event} {log : List (List Event)} {k : String}

theorem recorded_snoc (k : String) (l : List Event) (ev : Event) :
    recorded k (l ++ [ev]) = recorded k l + ev.data.usage.getD k 0 := by
  simp [recorded]

theorem getD_empty {V : Type} (k : String) (v : V) : (∅ : SMap V).getD k v = v := by
  rw [Std.ExtTreeMap.getD_eq_getD_getElem?, get_empty]
  rfl

theorem nothing_added (q : Rat) (k : String) : q = q + (∅ : SMap Rat).getD k 0 := by rw [getD_empty, add_zero]

/-- An ordinary event adds what it records. -/
theorem apply_counters (hp : Promise fl base s ev) (ho : ev.data.ordinary = true) (ha : s.apply x.quote fl ev = .ok s')
    (k : String) : s'.counters.getD k 0 = s.counters.getD k 0 + ev.data.usage.getD k 0 := by
  have hl := State.apply_ledger ha
  have hoffer := hp.offer
  show s'.ledger.counters.getD k 0 = _
  cases hd : ev.data <;> rw [hd] at hl ho hoffer
  case forked d => cases ho
  case continued d => cases ho
  case nodeDone d => rw [hl.2]; exact addAll_getD _ _ _
  case interrupted d => rw [hl.2]; exact addAll_getD _ _ _
  case childDone d => rw [hl.2]; exact addAll_getD _ _ _
  case nodeFail d =>
    obtain ⟨⟨t, ht, -⟩, -⟩ := hoffer
    rw [hl.2, if_pos (by simp [show s.tasks[d.key]? = some t from ht])]
    exact addAll_getD _ _ _
  case update d => rw [hl.2]; exact nothing_added _ _
  all_goals rw [hl]; exact nothing_added _ _

/-- The counters after the events `l`. -/
structure Counted (l : List Event) (s : State) : Prop where
  begun : s.events = 0 → l = []
  counters : ∀ k, s.counters.getD k 0 = recorded k l

theorem Counted.step (h : Counted l s) (hp : Promise fl base s ev) (ha : s.apply x.quote fl ev = .ok s') : Counted (l ++ [ev]) s' := by
  have hevents : s'.events ≠ 0 := by
    obtain ⟨-, s₁, -, rfl⟩ := State.apply_ok.1 ha
    exact Nat.succ_ne_zero _
  refine ⟨fun he => absurd he hevents, fun k => ?_⟩
  rw [recorded_snoc]
  by_cases ho : ev.data.ordinary = true
  · rw [apply_counters hp ho ha, h.counters]
  · have hl := State.apply_ledger ha
    have hoffer := hp.offer
    show s'.ledger.counters.getD k 0 = _
    cases hd : ev.data <;> rw [hd] at hl ho hoffer
    case forked d =>
      -- a fork is the first event
      rw [h.begun (hp.begins.1 (by rw [hd]; rfl)), hl]
      simp [recorded, Payload.usage, State.ledger]
    case continued d =>
      obtain ⟨seg, q, hst⟩ := hoffer
      rw [hl, hst, ← h.counters k]
      exact nothing_added _ _
    all_goals exact absurd rfl ho

theorem Reachable.counted (wf : WellFormed fl) (h : Reachable x fl s log) (k : String) :
    s.counters.getD k 0 = recorded k log.flatten := by
  obtain ⟨s₁, hp, ha⟩ := h.written wf
  have hnew : Counted [] (State.new "") := ⟨fun _ => rfl, fun k => getD_empty k 0⟩
  have hrun : Counted ([] ++ log.flatten) s₁ := hp.logInvariant (fun _ _ _ _ h hg ha => h.step hg.1 ha) hnew
  have hcounters : s₁.counters = s.counters := congrArg Ledger.counters ha.ledger
  rw [← hcounters]
  exact hrun.counters k

end

/-! ## Within the budget -/

def Within (fl : Flow) (s : State) : Prop := ∀ (k : String) (b : Rat), fl.budget[k]? = some b → s.counters.getD k 0 ≤ b

section
variable {c : Ctx} {s s' : State}

theorem within_of_none {usage : SMap Rat} (h : overBudgetWith c s usage = none) {k : String} {b : Rat}
    (hb : c.fl.budget[k]? = some b) : s.counters.getD k 0 + usage.getD k 0 ≤ b := by
  have hk := List.findSome?_eq_none_iff.1 h (k, b) (Std.ExtTreeMap.mem_toList_iff_getElem?_eq_some.2 hb)
  simp only at hk
  split at hk
  · cases hk
  · rename_i hlt
    exact not_lt.1 hlt

/-- What is left to show of a program: the execution ended or is within its budget. -/
def Spends (c : Ctx) (m : DecM Unit) (s : State) : Prop :=
  s.work.Fits c.fl → Within c.fl s →
    Runs c.apply (fun _ _ => True) (fun _ => True) m s fun _ s' => s'.status.terminal = true ∨ Within c.fl s'

theorem apply_uncounted {ev : Event} (hp : ev.data.counts = false) (ho : ev.data.ordinary = true)
    (ha : c.apply s ev = .ok s') : s'.counters = s.counters := by
  have hl := State.apply_ledger ha
  show s'.ledger.counters = _
  cases hd : ev.data <;> rw [hd] at hl hp ho
  case update d => exact hl.2
  case forked d => cases ho
  case continued d => cases ho
  all_goals first | exact congrArg Ledger.counters hl | cases hp

/-- The events that report no usage and replace no state. -/
def Payload.Unpaid (p : Payload) : Prop := p.counts = false ∧ p.ordinary = true

theorem Payload.reacts_unpaid : ∀ p : Payload, p.reacts = true → p.Unpaid := reacting fun _ hc ho => ⟨hc, ho⟩

/-- A program that reports no usage. -/
theorem Behaves.within {m : DecM Unit} (h : Behaves c Payload.Unpaid m s) (hs : s.work.Fits c.fl) (hw : Within c.fl s) :
    Runs c.apply (fun _ _ => True) (fun _ => True) m s fun _ s' => s'.work.Fits c.fl ∧ Within c.fl s' := by
  refine (Runs.keep (fun s ev s' hi hg ha k b hb => ?_) hw (h hs)).weaken fun _ _ _ => trivial
  rw [apply_uncounted hg.kind.1 hg.kind.2 ha]
  exact hi k b hb

theorem Behaves.spends {m : DecM Unit} (h : Behaves c Payload.Unpaid m s) : Spends c m s := fun hs hw =>
  (h.within hs hw).mono fun _ _ hq => .inr hq.2

theorem Spends.getSt {f : State → DecM Unit} (h : Spends c (f s) s) : Spends c (getSt >>= f) s := fun hs hw => Runs.getSt (h hs hw)

theorem Spends.nodeOf {id : String} {f : Node → DecM Unit} (h : ∀ n, c.fl.node id = some n → Spends c (f n) s) :
    Spends c (nodeOf c id >>= f) s := by
  unfold Packtrail.nodeOf
  cases hn : c.fl.node id with
  | none => exact fun _ _ => Runs.throw trivial
  | some n => exact h n hn

theorem fail_terminal (reason msg node : String) :
    Runs c.apply (fun _ _ => True) (fun _ => True) (fail c reason msg node) s fun _ s' => s'.status.terminal = true := by
  refine Runs.getSt (Runs.getAux fun _ => Runs.emitAny trivial (fun s' ha => ?_) fun _ _ => trivial)
  obtain ⟨-, s₁, hd, rfl⟩ := State.apply_ok.1 ha
  cases hd
  rfl

/-- What every report of usage is followed by. -/
theorem checked_spends {f : State → DecM Unit} {node : String} (hs : s.work.Fits c.fl) (h : Behaves c Payload.Unpaid (f s) s) :
    Runs c.apply (fun _ _ => True) (fun _ => True)
      (getSt >>= fun s => match overBudgetWith c s ∅ with | some excess => fail c "budget_exceeded" excess node | none => f s)
      s fun _ s' => s'.status.terminal = true ∨ Within c.fl s' := by
  refine Runs.getSt ?_
  cases hb : overBudgetWith c s ∅ with
  | some excess => exact (fail_terminal _ _ _).mono fun _ _ ht => .inl ht
  | none =>
    refine h.spends hs fun k b hk => ?_
    have hle := within_of_none hb hk
    rwa [getD_empty, add_zero] at hle

/-- A failing attempt is compared with the budget before its event. -/
theorem taskFailed_spends (wf : WellFormed c.fl) {t : Task} (ht : c.fl.Has NodeType.runs t.node) (msg : String) (retryable : Bool)
    (reason : String) (usage : SMap Rat) : Spends c (taskFailed c t msg retryable reason usage) s := by
  refine Spends.nodeOf fun n hn hs hw => Runs.getSt ?_
  have hemit : ∀ d : Event.NodeFail, d.usage = usage → Runs c.apply (fun _ _ => True) (fun _ => True) (emit c (.nodeFail d)) s
      fun _ s₁ => s₁.work.Fits c.fl ∧ (s₁.counters = s.counters ∨ s₁.counters = addAll s.counters usage) := by
    intro d hd
    refine Runs.emitAny trivial (fun s₁ ha => ⟨?_, ?_⟩) fun _ _ => trivial
    · rw [State.apply_work ha]
      exact hs.step (x := c.x) (s := s) trivial
    · have hl : s₁.counters = _ := (State.apply_ledger ha).2
      split at hl
      · exact .inr (hd ▸ hl)
      · exact .inl hl
  refine (hemit _ rfl).bind fun _ s₁ ⟨hfits, hcounters⟩ => ?_
  cases hb : overBudgetWith c s usage with
  | some excess => exact (fail_terminal _ _ _).mono fun _ _ ht => .inl ht
  | none =>
    refine (retryOrSettle_behaves Payload.reacts_unpaid wf hn ht _ _ _).spends hfits fun k b hk => ?_
    rcases hcounters with he | he
    · rw [he]
      exact hw k b hk
    · rw [he, addAll_getD]
      exact within_of_none hb hk

/-- A command on the live attempt it refers to. -/
theorem current_spends {ref : Cmd.TaskRef} {f : Task → DecM Unit}
    (h : ∀ t, c.fl.Has NodeType.runs t.node → Spends c (f t) s) :
    Spends c (match current s ref with | none => pure () | some t => f t) s := by
  intro hs hw
  cases hc : current s ref with
  | none => exact Runs.pure (.inr hw)
  | some t => exact h t (hs.task (current_some hc).1) hs hw

/-- An event that reports usage, and then the comparison. -/
theorem report_spends {p : Payload} {f : State → DecM Unit} {node : String} (hd : p.Due c.x c.fl s) (hb : p.Blames c.fl)
    (h : ∀ s₁, s₁.work.Fits c.fl → Behaves c Payload.Unpaid (f s₁) s₁) :
    Spends c (emit c p >>= fun _ => getSt >>= fun s =>
      match overBudgetWith c s ∅ with | some excess => fail c "budget_exceeded" excess node | none => f s) s := by
  intro hs hw
  have hemit := Behaves.emit (A := fun _ => True) trivial hd hb hs
  exact (hemit.weaken fun _ _ _ => trivial).bind fun _ s₁ hfits => checked_spends hfits (h s₁ hfits)

theorem complete_spends (wf : WellFormed c.fl) (p : Cmd.CompleteData) : Spends c (complete c p) s := by
  refine .getSt (current_spends fun t ht => .nodeOf fun n hn => ?_)
  simp only
  split
  · exact taskFailed_spends wf ht _ _ _ _
  · rename_i hcheck
    obtain ⟨u, hw, hdyn⟩ := checkCompletion_none hcheck
    refine report_spends hw trivial fun s₁ _ => afterSettle_behaves Payload.reacts_unpaid wf hn (ht.type hn) fun hne => ?_
    exact wf.dynamic hn (by simpa [Node.allowsDynamic] using (hdyn hne).2)

theorem failTask_spends (wf : WellFormed c.fl) (p : Cmd.FailData) : Spends c (failTask c p) s :=
  .getSt (current_spends fun _ ht => taskFailed_spends wf ht _ _ _ _)

theorem interrupt_spends (p : Cmd.InterruptData) : Spends c (interrupt c p) s :=
  .getSt (current_spends fun _ _ => report_spends trivial trivial fun _ _ => .pure _)

theorem timer_spends (wf : WellFormed c.fl) (p : Cmd.TimerData) : Spends c (timer c p) s := by
  refine .getSt ?_
  split
  · exact fun _ hw => Runs.pure (.inr hw)
  · rename_i tm _
    intro hs hw
    have hfired : Behaves c Payload.Unpaid (emit c (.fired { id := tm.id })) s := .emit ⟨rfl, rfl⟩ trivial trivial
    refine (hfired.within hs hw).bind fun _ s₁ ⟨hs₁, hw₁⟩ => Spends.getSt ?_ hs₁ hw₁
    split
    · refine Behaves.spends ?_
      split
      · exact .pure _
      · rename_i t ht
        refine .ite (fun _ => .nodeOf fun n hn => ?_) fun _ => .pure _
        exact schedule_behaves (working Payload.reacts_unpaid) ((Flow.node_id hn).symm ▸ hs₁.task ht) _ _ _ _ _ _ _
    · exact current_spends fun _ ht => taskFailed_spends wf ht _ _ _ _
    · exact (awaitTimeout_behaves (fun _ hc ho => ⟨hc, ho⟩) wf _).spends

theorem childDone_spends (wf : WellFormed c.fl) (p : Cmd.ChildDoneData) : Spends c (childDone c p) s := by
  refine .getSt ?_
  split
  · exact fun _ hw => Runs.pure (.inr hw)
  · rename_i key ch hfind
    intro hs
    have hhas := hs.child (child_of_find hfind)
    rw [hhas.nodeOf wf]
    exact report_spends trivial trivial (fun s₁ hs₁ => afterChild_behaves Payload.reacts_unpaid wf hs₁ hhas _ _ _) hs

theorem decideData_spends (wf : WellFormed c.fl) (d : CmdData) : Spends c (decideData c d) s := by
  have hA : ∀ p : Payload, p.counts = false → p.ordinary = true → p.Unpaid := fun _ hc ho => ⟨hc, ho⟩
  cases d with
  | start p => exact (start_behaves hA wf p).spends
  | complete p => exact complete_spends wf p
  | fail p => exact failTask_spends wf p
  | interrupt p => exact interrupt_spends p
  | resume p => exact (resume_behaves hA p).spends
  | signal p => exact (signal_behaves hA wf p).spends
  | cancel p => exact (cancel_behaves hA p).spends
  | timer p => exact timer_spends wf p
  | childDone p => exact childDone_spends wf p
  | update writes => exact (update_behaves hA writes).spends
  | undecodable t e => exact fun _ _ => Runs.throw trivial
  | operational t => exact fun _ _ => Runs.throw trivial

end

/-! ## Whole runs -/

section
variable {x : Ext} {fl : Flow} {s : State} {evs : List Event} {now : Time} {log : List (List Event)}

/-- An unfinished execution is within its budget. -/
def Solvent (fl : Flow) (s : State) : Prop := s.status.terminal = true ∨ Within fl s

theorem forkProg_spends {c : Ctx} (wf : WellFormed c.fl) (hs : s.work.Fits c.fl) {src : State} (hsrc : src.work.Fits c.fl) (hw : Solvent c.fl src)
    (source : String) (seq : Nat) (writes : SMap Json) :
    Runs c.apply (fun _ _ => True) (fun _ => True) (forkProg c src source seq writes) s fun _ s' => Solvent c.fl s' := by
  have hA : ∀ p : Payload, p.counts = false → p.ordinary = true → p.Unpaid := fun _ hc ho => ⟨hc, ho⟩
  have hemit : Runs c.apply (fun _ _ => True) (fun _ => True)
      (emit c (.forked { execID := s.execID, source, seq, state := src.marshal })) s fun _ s₁ =>
        s₁.work.Fits c.fl ∧ Solvent c.fl s₁ := by
    refine Runs.emitAny trivial (fun s₁ ha => ⟨?_, ?_⟩) fun _ _ => trivial
    · rw [State.apply_work ha]
      refine hs.step (x := c.x) (s := s) ?_
      show src.encoded.work.Fits c.fl
      rw [State.work_encoded]
      exact hsrc
    · refine hw.imp (fun ht => ?_) fun hin k b hk => ?_
      · obtain ⟨-, s₂, hd, rfl⟩ := State.apply_ok.1 ha
        cases hd
        have hst : (State.applyForked ⟨s.execID, source, seq, src.marshal⟩).status = src.status := rfl
        simp only [State.finish, hst, ht, Bool.true_or, if_true]
      · have hl : s₁.counters = src.counters := congrArg Ledger.counters (State.apply_ledger ha)
        rw [hl]
        exact hin k b hk
  refine Runs.getSt (hemit.bind fun _ s₁ h₁ => Runs.getSt ?_)
  obtain ⟨hs₁, hw₁⟩ := h₁
  split
  · split
    · exact Runs.pure hw₁
    · rename_i hlive
      exact (rekick_behaves hA wf).spends hs₁ (hw₁.resolve_left hlive)
  · split
    · exact Runs.throw trivial
    · rename_i hlive
      split
      · exact Runs.throw trivial
      · rename_i u hu
        refine Behaves.spends ?_ hs₁ (hw₁.resolve_left hlive)
        exact .bind (.emit ⟨rfl, rfl⟩ hu trivial) fun _ s₂ => rekick_behaves hA wf

theorem Ask.solvent (wf : WellFormed fl) (hs : s.work.Fits fl) (hw : Within fl s) {a : Ask}
    (hsrc : ∀ src, a.source = some src → src.work.Fits fl ∧ Solvent fl src) (hok : (a.decide x fl s now).result = .ok evs) :
    Solvent fl (a.decide x fl s now).state := by
  cases a with
  | command cmd =>
    simp only [Ask.decide] at hok ⊢
    rcases decide_cases x fl s cmd now with h | h | ⟨e, h⟩
    · rw [h] at hok ⊢
      exact (Runs.decision (decideData_spends (c := ⟨x, fl, now, cmd.id⟩) wf cmd.data hs hw) hok).2
    · rw [h]
      exact .inr hw
    · rw [h] at hok
      cases hok
  | fork src source seq cmdID writes =>
    simp only [Ask.decide, decideFork] at hok ⊢
    split at hok
    · rename_i hex
      rw [if_pos hex]
      exact .inr hw
    · rename_i hex
      rw [if_neg hex]
      obtain ⟨hfits, hsolvent⟩ := hsrc src rfl
      exact (Runs.decision (forkProg_spends (c := ⟨x, fl, now, cmdID⟩) wf hs hfits hsolvent source seq writes) hok).2

theorem budget_pos (hv : validate x fl = []) {k : String} {b : Rat} (hb : fl.budget[k]? = some b) : 0 < b := by
  have hlocal := local_of_validate hv
  simp only [localProblems, flowLevelProblems, List.append_eq_nil_iff, List.flatMap_eq_nil_iff] at hlocal
  have hk := hlocal.1.2.1.1.2 (k, b) (Std.ExtTreeMap.mem_toList_iff_getElem?_eq_some.2 hb)
  simp only [budgetProblems, List.append_eq_nil_iff, problemIf_nil] at hk
  simpa using hk.2

theorem abort_solvent {first : Option Event} (hw : Within fl s) (cmdID reason msg : String)
    (hok : (abort x fl s first cmdID reason msg now).result = .ok evs) : Solvent fl (abort x fl s first cmdID reason msg now).state := by
  have hrun : Runs (Ctx.apply ⟨x, fl, now, cmdID⟩) (fun _ _ => True) (fun _ => True)
      (abortProg ⟨x, fl, now, cmdID⟩ first reason msg) s fun _ s' => Solvent fl s' := by
    have hfail : ∀ s, Runs (Ctx.apply ⟨x, fl, now, cmdID⟩) (fun _ _ => True) (fun _ => True)
        (fail ⟨x, fl, now, cmdID⟩ reason msg "") s fun _ s' => Solvent fl s' := fun _ =>
      (fail_terminal _ _ _).mono fun _ _ ht => .inl ht
    refine Runs.getSt ?_
    split
    · split
      · exact Runs.pure (.inr hw)
      · exact hfail s
    · split
      · exact Runs.throw trivial
      · have hemit : ∀ p, Runs (Ctx.apply ⟨x, fl, now, cmdID⟩) (fun _ _ => True) (fun _ => True)
            (emit ⟨x, fl, now, cmdID⟩ p) s fun _ _ => True :=
          fun p => Runs.emitAny trivial (fun _ _ => trivial) fun _ _ => trivial
        refine (hemit _).bind fun _ s₁ _ => Runs.getSt ?_
        split
        · rename_i ht
          exact Runs.pure (.inl ht)
        · exact hfail s₁
  exact (Runs.decision hrun hok).2

theorem continueAsNew_solvent (hw : Within fl s) (seg : Segment) (cmdID : String)
    (hok : (continueAsNew x fl s seg cmdID now).result = .ok evs) : Solvent fl (continueAsNew x fl s seg cmdID now).state := by
  simp only [Packtrail.continueAsNew] at hok ⊢
  split at hok
  · rename_i hno
    rw [if_pos hno]
    exact .inr hw
  · rename_i hno
    rw [if_neg hno]
    refine (Runs.decision (Q := fun _ s' => Solvent fl s') (G := fun _ _ => True) (B := fun _ => True) (c := ⟨x, fl, now, cmdID⟩)
      (Runs.emitAny trivial (fun s₁ ha => .inr fun k b hk => ?_) fun _ _ => trivial) hok).2
    have hl : s₁.counters = s.counters := congrArg Ledger.counters (State.apply_ledger ha)
    rw [hl]
    exact hw k b hk

theorem Request.solvent (wf : WellFormed fl) (hs : s.work.Fits fl) (hw : Within fl s) {req : Request}
    (hsrc : ∀ src, req.source = some src → src.work.Fits fl ∧ Solvent fl src) (hok : (req.perform x fl s now).result = .ok evs) :
    Solvent fl (req.perform x fl s now).state := by
  cases req with
  | ask a => exact Ask.solvent wf hs hw hsrc hok
  | continueAsNew seg cmdID => exact continueAsNew_solvent hw seg cmdID hok
  | abort a decided cmdID reason msg =>
    simp only [Request.perform] at hok ⊢
    cases hd : (a.decide x fl s decided).result with
    | error e => exact .inr hw
    | ok evs₀ =>
      rw [hd] at hok
      cases evs₀ with
      | nil => exact .inr hw
      | cons first rest => exact abort_solvent hw cmdID reason msg hok

theorem Reachable.solvent (hv : validate x fl = []) (h : Reachable x fl s log) : Solvent fl s := by
  have wf := wellFormed_of_validate hv
  induction h with
  | new execID => exact .inr fun k b hk => (getD_empty k 0).trans_le (budget_pos hv hk).le
  | reload _ ha ih =>
    refine ih.imp (fun ht => ha.status ▸ ht) fun hw k b hk => ?_
    have hcounters : _ = _ := congrArg Ledger.counters ha.ledger
    show (State.ledger _).counters.getD k 0 ≤ b
    rw [← hcounters]
    exact hw k b hk
  | @step s log slog evs req now h hsrc hex hok ih ihsrc =>
    have hduly := perform_duly wf (h.fits wf) (fun src hs => (hsrc src hs).fits wf) hok
    by_cases hne : evs = []
    · subst hne
      rw [hduly.eq_of_nil]
      exact ih
    · have hfrom : req.Sourced x fl := fun src hs => ⟨hex src hs, slog, hsrc src hs⟩
      have hwrote := ((h.tracked wf).wrote wf req (hfrom.ok wf) now hok hne).1
      have hlive : s.status.terminal = false := by
        generalize (req.perform x fl s now).state = t at hwrote
        cases hwrote with
        | nil => exact absurd rfl hne
        | cons guard _ _ => exact guard.unended
      have hw : Within fl s := ih.resolve_left (by simp [hlive])
      exact Request.solvent wf (h.fits wf) hw (fun src hs => ⟨(hsrc src hs).fits wf, ihsrc src hs⟩) hok

/-- **Counters are exact and budgets hold.** -/
theorem budgets_hold (hv : validate x fl = []) (h : Reachable x fl s log) :
    (∀ k, s.counters.getD k 0 = recorded k log.flatten) ∧
    (s.status.terminal = false → ∀ (k : String) (b : Rat), fl.budget[k]? = some b → s.counters.getD k 0 ≤ b) :=
  ⟨h.counted (wellFormed_of_validate hv), fun hlive => (h.solvent hv).resolve_left (by simp [hlive])⟩

end

def pricedReview : Flow :=
  { oneTask with
    nodes := [{ id := "draft", type := .task, kind := "write", next := "check" }, { id := "check", type := .task, kind := "read" }]
    budget := (∅ : SMap Rat).insert "tokens" 10 }

theorem pricedReview_valid : validate plainExt pricedReview = [] := by decide +kernel

def spent : State × List (List Event) :=
  (serve plainExt pricedReview (State.new "r1") []
    [(startReview, 1), (⟨"done-1", .complete { key := "draft", generation := 1, attempt := 1, usage := (∅ : SMap Rat).insert "tokens" 4 }⟩, 2)]).get
    (by decide +kernel)

theorem spent_within : recorded "tokens" spent.2.flatten = 4 ∧ spent.1.status.terminal = false ∧
    spent.1.counters.getD "tokens" 0 = recorded "tokens" spent.2.flatten ∧ spent.1.counters.getD "tokens" 0 ≤ 10 := by
  have hr : Reachable plainExt pricedReview spent.1 spent.2 := (Reachable.new "r1").serve (Option.some_get _).symm
  have h := budgets_hold pricedReview_valid hr
  have hlive : spent.1.status.terminal = false := by decide +kernel
  exact ⟨by decide +kernel, hlive, h.1 "tokens", h.2 hlive "tokens" 10 (by decide +kernel)⟩

end Packtrail
