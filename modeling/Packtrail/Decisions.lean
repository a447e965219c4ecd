import Packtrail.Reach

/-
# Decisions and the states between them

What holds of every decision of a validated flow and of every state between two decisions: folding the
emitted events gives the decided state (`decision_folds_back`), an unfinished execution has exactly one
thing in progress (`one_in_progress`), and whatever waits has a timer to wake it (`wait_has_wakeup`).
-/

namespace Packtrail

open Replay

section
variable {x : Ext} {fl : Flow} {base : Nat} {s : State} {log : List (List Event)}

/-! ## Events and the decided state -/

/-- Every promised event counts once. -/
theorem Promise.events {ev : Event} {s' : State} (h : Promise fl base s ev)
    (ha : s.apply x.quote fl ev = .ok s') : s'.events = s.events + 1 := by
  obtain ⟨-, s₁, hd, rfl⟩ := State.apply_ok.1 ha
  refine congrArg (· + 1) ?_
  have ho := h.offer
  cases hp : ev.data with
  | forked d =>
    rw [State.applyData, hp] at hd
    cases hd
    exact (h.begins.1 (by rw [hp]; rfl)).symm
  | continued d =>
    rw [State.applyData, hp] at hd
    rw [hp] at ho
    obtain ⟨seg, q, hst⟩ := ho
    cases hd
    show (unmarshal d.state).events = s.events
    rw [hst]
    rfl
  | started d => rw [State.applyData, hp] at hd; cases hd; rfl
  | completed d => rw [State.applyData, hp] at hd; cases hd; rfl
  | failed d => rw [State.applyData, hp] at hd; cases hd; rfl
  | cancelled d => rw [State.applyData, hp] at hd; cases hd; rfl
  | _ => exact (State.applyData_keeps (by rw [hp]; rfl) hd).events

theorem Path.indexes {evs : List Event} {s' : State}
    (h : Path (State.apply x.quote fl) (Promise fl base) s evs s') :
    evs.map Event.index = List.range' (s.events + 1) evs.length := by
  induction h with
  | nil s => rfl
  | cons guard ok _ ih =>
    rw [List.map_cons, ih, guard.events ok, guard.index, List.length_cons, List.range'_succ]

/-- **A decision is the fold of its events.** Folded onto any copy of the state it was taken on, the
events of a decision give the state it left behind, and their indexes go on from the old ones. A
decision that fails does so with an error the source returns on purpose: no event was refused. -/
theorem decision_folds_back (hv : validate x fl = []) (h : Reachable x fl s log) (req : Request)
    (hsrc : req.Sourced x fl) (now : Time) :
    (∀ evs, (req.perform x fl s now).result = .ok evs →
      (∀ copy : State, copy.marshal = s.marshal → ∃ t, replay (State.apply x.quote fl) copy evs = .ok t ∧
        t.marshal = (req.perform x fl s now).state.marshal) ∧
      evs.map Event.index = List.range' (s.events + 1) evs.length) ∧
    ∀ e, (req.perform x fl s now).result = .error e → e.benign := by
  obtain ⟨b, hd⟩ := h.decides (wellFormed_of_validate hv) hsrc now
  constructor
  · intro evs hok
    rcases hd with ⟨evs', hr, hp, -⟩ | ⟨e, hr, -⟩
    · cases hok.symm.trans hr
      refine ⟨fun copy hcopy => ?_, Path.indexes hp⟩
      obtain ⟨t, ht, hm⟩ := State.marshal_replay hcopy.symm hp.replay
      exact ⟨t, ht, hm.symm⟩
    · cases hok.symm.trans hr
  · intro e he
    rcases hd with ⟨evs', hr, -⟩ | ⟨e', hr, hb⟩
    · cases he.symm.trans hr
    · cases he.symm.trans hr
      exact hb

end

/-! ### A flow of one task -/

/-- Libraries that accept everything and evaluate nothing. -/
def plainExt : Ext where
  compileValue _ := .ok ()
  compilePredicate _ := .ok ()
  eval _ _ := .error "no expressions"
  evalInput _ _ := .error "no expressions"
  compileSchema _ := .ok ()
  validateSchema _ _ := .ok ()
  flowHash _ := .ok "hash"
  sha12 parent := parent
  quote s := s
  formatG _ := ""

def oneTask : Flow :=
  { version := "1", name := "review", nodes := [{ id := "draft", type := .task, kind := "write", timeout := 60 }] }

theorem oneTask_valid : validate plainExt oneTask = [] := by decide +kernel

def startReview : Command := ⟨"start-1", .start { flow := "review" }⟩

/-- The events of a decision that went through. -/
def Outcome.events (o : Outcome) : List Event := o.result.toOption.getD []

theorem ok_of_isOk {ε α : Type} {r : Except ε α} (h : r.isOk = true) (a : α) : r = .ok (r.toOption.getD a) := by
  cases r with
  | error e => cases h
  | ok b => rfl

theorem Outcome.result_events {o : Outcome} (h : o.result.isOk = true) : o.result = .ok o.events := ok_of_isOk h []

def startedReview : Outcome := decide plainExt oneTask (State.new "r1") startReview 1

theorem Ask.sourced_command (x : Ext) (fl : Flow) (cmd : Command) : (Request.ask (.command cmd)).Sourced x fl :=
  fun _ hs => by cases hs

/-- A command decided without error on a reachable state. -/
theorem Reachable.command {x : Ext} {fl : Flow} {s : State} {log : List (List Event)} (h : Reachable x fl s log)
    (cmd : Command) (now : Time) (hok : (decide x fl s cmd now).result.isOk = true) :
    Reachable x fl (decide x fl s cmd now).state (record log (decide x fl s cmd now).events) :=
  @Reachable.step x fl s log [] _ (.ask (.command cmd)) now h (fun _ hs => by cases hs) (fun _ hs => by cases hs)
    (Outcome.result_events hok)

/-- Commands decided one after another at their times, each decision stored; nothing when one is refused. -/
def serve (x : Ext) (fl : Flow) : State → List (List Event) → List (Command × Time) → Option (State × List (List Event))
  | s, log, [] => some (s, log)
  | s, log, (cmd, now) :: rest =>
    match (decide x fl s cmd now).result with
    | .ok evs => serve x fl (decide x fl s cmd now).state (record log evs) rest
    | .error _ => none

theorem Reachable.serve {x : Ext} {fl : Flow} {s : State} {log : List (List Event)} {r : State × List (List Event)}
    {cmds : List (Command × Time)} (h : Reachable x fl s log) (hs : Packtrail.serve x fl s log cmds = some r) :
    Reachable x fl r.1 r.2 := by
  induction cmds generalizing s log with
  | nil => cases hs; exact h
  | cons c cmds ih =>
    obtain ⟨cmd, now⟩ := c
    simp only [Packtrail.serve] at hs
    split at hs
    · rename_i evs hok
      exact ih (@Reachable.step x fl s log [] evs (.ask (.command cmd)) now h (fun _ he => by cases he) (fun _ he => by cases he) hok) hs
    · cases hs

theorem startedReview_reachable : Reachable plainExt oneTask startedReview.state (record [] startedReview.events) :=
  (Reachable.new "r1").command startReview 1 (by decide +kernel)

def completeDraft : Command := ⟨"done-1", .complete { key := "draft", generation := 1, attempt := 1 }⟩

theorem complete_folds_back :
    (decide plainExt oneTask startedReview.state completeDraft 2).events.length = 2 ∧
    ∃ t, replay (State.apply plainExt.quote oneTask) startedReview.state.encoded
      (decide plainExt oneTask startedReview.state completeDraft 2).events = .ok t ∧
      t.marshal = (decide plainExt oneTask startedReview.state completeDraft 2).state.marshal := by
  refine ⟨by decide +kernel, ?_⟩
  have h := decision_folds_back oneTask_valid startedReview_reachable (.ask (.command completeDraft))
    (Ask.sourced_command _ _ _) 2
  exact (h.1 _ (Outcome.result_events (by decide +kernel))).1 _ (by simp [State.marshal])

/-! ## What is in progress between two decisions -/

/-- Exactly one thing is in progress: in each case the maps that are not mentioned are empty. -/
inductive OneInProgress (fl : Flow) (s : State) : Prop
  | task {k : String} {t : Task} (tasks : s.tasks = single k t) (owner : t.owner = "")
      (fans : s.fans = ∅) (maps : s.maps = ∅) (awaits : s.awaits = ∅) (children : s.children = ∅)
  | await {k : String} {a : AwaitState} (awaits : s.awaits = single k a)
      (tasks : s.tasks = ∅) (fans : s.fans = ∅) (maps : s.maps = ∅) (children : s.children = ∅)
  | child {k : String} {ch : ChildState} (children : s.children = single k ch) (owner : ch.owner = "")
      (plain : ∃ nd, fl.node k = some nd ∧ nd.type = .subflow)
      (tasks : s.tasks = ∅) (fans : s.fans = ∅) (maps : s.maps = ∅) (awaits : s.awaits = ∅)
  | fan {fan : String} {f : Fan} (fans : s.fans = single fan f)
      (pending : ∀ b : String, f.branches[b]? = some .pending ↔ b ∈ s.tasks ∨ b ∈ s.children)
      (once : ∀ b : String, b ∈ s.tasks → b ∉ s.children)
      (tasks : ∀ (k : String) (t : Task), s.tasks[k]? = some t → t.owner = fan)
      (children : ∀ (k : String) (ch : ChildState), s.children[k]? = some ch → ch.owner = fan)
      (waits : ∃ b ∈ fl.waitFor f.join, f.branches[b]? = some .pending) (maps : s.maps = ∅) (awaits : s.awaits = ∅)
  | map {m : String} {r : MapRun} (maps : s.maps = single m r) (busy : (∃ k, k ∈ s.tasks) ∨ ∃ k, k ∈ s.children)
      (tasks : ∀ (k : String) (t : Task), s.tasks[k]? = some t → t.owner = m)
      (children : ∀ (k : String) (ch : ChildState), s.children[k]? = some ch → ch.owner = m)
      (fans : s.fans = ∅) (awaits : s.awaits = ∅)

section
variable {x : Ext} {fl : Flow} {base : Nat} {s : State} {log : List (List Event)}

theorem State.maps_empty (h : s.work.maps = ∅) : s.maps = ∅ := eq_empty_of_get fun k => no_map_of_empty h k

theorem State.maps_single {m : String} {r : MapWork} (h : s.work.maps = single m r) :
    ∃ run, s.maps = single m run ∧ run.work = r := by
  obtain ⟨run, hrun, hr⟩ := State.maps_of_work h
  refine ⟨run, ?_, hr⟩
  apply Std.ExtTreeMap.ext_getElem?
  intro k
  rw [single, get_insert, get_empty]
  split
  · rename_i he; rw [← he]; exact hrun
  · rename_i hne
    have hget := s.work_maps_get k
    rw [h, single, get_insert, get_empty, if_neg hne] at hget
    exact Option.map_eq_none_iff.1 hget.symm

theorem exists_mem_of_size {V : Type} {m : SMap V} (h : m.size ≠ 0) : ∃ k, k ∈ m := by
  by_contra hno
  refine h (Std.ExtTreeMap.eq_empty_iff_size_eq_zero.1 (eq_empty_of_get fun k => ?_))
  cases hget : m[k]? with
  | none => rfl
  | some v => exact absurd ⟨k, mem_of_get hget⟩ hno

theorem Progress.one (h : Progress fl s.work) : OneInProgress fl s := by
  cases h with
  | task h =>
    exact .task h.tasks h.owner h.rest.fans (State.maps_empty h.rest.maps) h.rest.awaits h.rest.children
  | await h _ =>
    exact .await h.awaits h.rest.tasks h.rest.fans (State.maps_empty h.rest.maps) h.rest.children
  | child h =>
    exact .child h.children h.owner h.type h.rest.tasks h.rest.fans (State.maps_empty h.rest.maps) h.rest.awaits
  | @fan fan f h hwaits =>
    refine .fan h.fans (fun b => ⟨fun hp => h.pending hp (by simp), ?_⟩) (fun b hb hc => ?_)
      (fun k t hget => (h.task hget).1) (fun k ch hget => (h.child hget).1) hwaits (State.maps_empty h.rest.maps)
      h.rest.awaits
    · rintro (hb | hb)
      · obtain ⟨t, ht⟩ := get_of_mem hb
        exact (h.task ht).2.2.1
      · obtain ⟨ch, hch⟩ := get_of_mem hb
        exact (h.child hch).2.2.1
    · -- a branch is a task node or a subflow node, not both
      obtain ⟨t, ht⟩ := get_of_mem hb
      obtain ⟨ch, hch⟩ := get_of_mem hc
      obtain ⟨-, -, -, -, nd, hnd, hty⟩ := h.task ht
      obtain ⟨-, -, -, -, nd', hnd', hty'⟩ := h.child hch
      rw [Option.some.inj (hnd.symm.trans hnd'), hty'] at hty
      cases hty
  | @map m r h hbusy =>
    obtain ⟨run, hrun, -⟩ := State.maps_single h.maps
    refine .map hrun ?_ (fun k t hget => (h.task hget).1) (fun k ch hget => (h.child hget).1) h.rest.fans h.rest.awaits
    have hcount := h.count
    by_cases ht : s.work.tasks.size = 0
    · exact .inr (exists_mem_of_size (show s.work.children.size ≠ 0 by omega))
    · exact .inl (exists_mem_of_size ht)

/-- **One thing at a time.** A state between two decisions that has not ended has exactly one thing in
progress, and an execution completes only when nothing is open. -/
theorem one_in_progress (hv : validate x fl = []) (h : Reachable x fl s log) :
    (s.exists = true → s.status.terminal = false → OneInProgress fl s) ∧
    ∀ before ev after d, log.flatten = before ++ ev :: after → ev.data = .completed d →
      ∃ execID s₀, replay (State.apply x.quote fl) (State.new execID) before = .ok s₀ ∧
        s₀.tasks = ∅ ∧ s₀.awaits = ∅ ∧ s₀.children = ∅ ∧ s₀.fans = ∅ ∧ s₀.maps = ∅ := by
  have htr := h.tracked (wellFormed_of_validate hv)
  constructor
  · intro hex hst
    rcases htr.settled hex with he | ⟨-, hr⟩
    · rw [he.status] at hst; cases hst
    · exact hr.progress.one
  · intro before ev after d hlog hd
    cases htr with
    | absent hl _ _ => rw [hl] at hlog; simp at hlog
    | @present _ execID _ hp _ =>
      rw [hlog] at hp
      obtain ⟨s₀, hbefore, hrest⟩ := hp.split
      cases hrest with
      | cons guard _ _ =>
        have hidle : s₀.work.Idle := by
          have ho := guard.offer
          rw [hd] at ho
          exact ho
        exact ⟨execID, s₀, hbefore.replay, hidle.tasks, hidle.awaits, hidle.children, hidle.fans,
          State.maps_empty hidle.maps⟩

end

theorem startedReview_one_in_progress : OneInProgress oneTask startedReview.state :=
  (one_in_progress oneTask_valid startedReview_reachable).1 (by decide +kernel) (by decide +kernel)

/-! ## Wake-ups -/

/-- **Every wait has a wake-up**: an await its own timer, an attempt with a timeout the timer of exactly
that attempt, a task between two attempts the timer of the next one. -/
theorem wait_has_wakeup {x : Ext} {fl : Flow} {s : State} {log : List (List Event)} (hv : validate x fl = [])
    (h : Reachable x fl s log) :
    (∀ (k : String) (a : AwaitState), s.awaits[k]? = some a →
      ∃ tm, s.timers[a.timerID]? = some tm ∧ tm.id = a.timerID ∧ tm.purpose = .await ∧ tm.node = k) ∧
    (∀ (k : String) (t : Task) (nd : Node), s.tasks[k]? = some t → t.status = .scheduled → fl.node t.node = some nd →
      0 < nd.timeout → ∃ (id : String) (tm : Timer), s.timers[id]? = some tm ∧ tm.purpose = .timeout ∧ tm.key = k ∧
        tm.generation = t.generation ∧ tm.attempt = t.attempt) ∧
    ∀ (k : String) (t : Task), s.tasks[k]? = some t → t.status = .retrying →
      ∃ (id : String) (tm : Timer), s.timers[id]? = some tm ∧ tm.purpose = .retry ∧ tm.key = k ∧
        tm.generation = t.generation ∧ tm.attempt = t.attempt + 1 := by
  rcases (h.tracked (wellFormed_of_validate hv)).idle_or_rested with hi | ⟨hu, hr⟩
  · exact ⟨fun _ _ hget => (hi.no_await hget).elim, fun _ _ _ hget => (hi.no_task hget).elim,
      fun _ _ hget => (hi.no_task hget).elim⟩
  · refine ⟨fun k a hget => ?_, fun k t nd hget hst hnd hto => ?_, fun k t hget hst => ?_⟩
    · obtain ⟨tm, htm, hpur, hnode⟩ := hr.awaits k a hget
      exact ⟨tm, htm, (hu.sound.timer htm).1, hpur, hnode⟩
    · have hkey : t.key = k := (hu.sound.task hget).key
      rw [← hkey]
      exact (hr.tasks k t hget id).timeout hst nd hnd hto
    · have hkey : t.key = k := (hu.sound.task hget).key
      rw [← hkey]
      exact (hr.tasks k t hget id).retry hst

theorem startedReview_has_wakeup :
    ∃ (id : String) (tm : Timer), startedReview.state.timers[id]? = some tm ∧ tm.purpose = .timeout ∧ tm.key = "draft" ∧
      tm.generation = 1 ∧ tm.attempt = 1 := by
  have hget : (startedReview.state.tasks["draft"]?).map (fun t => (t.status, t.node, t.generation, t.attempt)) =
      some (.scheduled, "draft", 1, 1) := by decide +kernel
  obtain ⟨t, ht, heq⟩ := Option.map_eq_some_iff.1 hget
  simp only [Prod.mk.injEq] at heq
  obtain ⟨id, tm, htm, hp, hk, hg, ha⟩ := (wait_has_wakeup oneTask_valid startedReview_reachable).2.1 "draft" t
    { id := "draft", type := .task, kind := "write", timeout := 60 } ht heq.1 (by rw [heq.2.1]; rfl) (by decide)
  exact ⟨id, tm, htm, hp, hk, hg.trans heq.2.2.1, ha.trans heq.2.2.2⟩

end Packtrail
