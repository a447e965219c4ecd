import Packtrail.Progress

/-
# The decider, statement by statement

`Holds c base m s Q` specifies decider program `m` from state `s`: every event it emits keeps its
promise and is accepted by `Apply`, it ends in a state that meets `Q`, and its only errors are those
the source returns on purpose (`Err.benign`): no panic, no refused event, and the recursion budget is
never used up. This module walks through the programs that end an execution, schedule work and enter
nodes; `Packtrail.Settle` through those that react to a command.
-/

namespace Packtrail

open Emitter

/-- The errors a decision returns on purpose. -/
def Err.benign : Err → Prop
  | .apply _ | .panic _ | .fuel => False
  | _ => True

def Holds {α : Type} (c : Ctx) (base : Nat) (m : DecM α) (s : State) (Q : α → State → Prop) : Prop :=
  Runs c.apply (Promise c.fl base) Err.benign m s Q

section
variable {c : Ctx} {base : Nat} {s : State}

/-! ## Emitting one event -/

theorem Ctx.event_index (c : Ctx) (p : Payload) (s : State) (hf : p.isForked = false) :
    (c.event p s).index = s.events + 1 := by
  simp [Ctx.event, hf]

variable {p : Payload} {n : Node} {b fan key m owner : String} {floor index : Nat} {item : Raw} {t : Task} {k : String → DecM Unit}
variable {w w' : Work} {ch : ChildState} {V : Type} {bs : List String} {fl : Flow} {f : Fan} {r : MapWork}

theorem State.expectedIndex_event (hp : p.plain = true ∨ p.terminal = true) :
    s.expectedIndex (c.event p s) = s.events + 1 ∧ p.isForked = false ∧ p.begins = false := by
  cases p <;> simp_all [State.expectedIndex, Ctx.event, Payload.plain, Payload.terminal, Payload.isForked, Payload.begins]

/-- An event that keeps the execution going. -/
theorem emits (h : Unfinished c.fl base s) (hp : p.plain = true) (ho : Offer c.fl base s p)
    (ok : ∃ s₁, s.applyData c.x.quote c.fl (c.event p s) = .ok s₁) :
    Holds c base (emit c p) s fun _ s' => Unfinished c.fl base s' ∧ s'.work = s.work.step p := by
  obtain ⟨s₁, hs₁⟩ := ok
  obtain ⟨hi, hf, hb⟩ := State.expectedIndex_event (c := c) (s := s) (.inl hp)
  have hidx := c.event_index p s hf
  have happ : c.apply s (c.event p s) = .ok (s₁.finish (c.event p s)) :=
    State.apply_ok.2 ⟨.inr (hidx.trans hi.symm), s₁, hs₁, rfl⟩
  have hw := State.apply_work happ
  obtain ⟨-, hlive⟩ := State.apply_plain hp happ
  have hne : s.events ≠ 0 := h.live.begun.ne'
  refine Runs.emit ⟨hidx, h.live.unended, ?_, ho⟩ happ ⟨⟨hlive h.live, ?_, ?_⟩, hw⟩
  · show p.begins = true ↔ _
    simp [hb, hne]
  · rw [hw]; exact h.sound.step ho
  · have : s.n ≤ (s₁.finish (c.event p s)).work.n := hw ▸ Work.step_n hp s.work
    exact h.base_le.trans this

theorem emits_then {Q : Unit → State → Prop} (h : Unfinished c.fl base s) (hp : p.plain = true)
    (ho : Offer c.fl base s p) (ok : ∃ s₁, s.applyData c.x.quote c.fl (c.event p s) = .ok s₁)
    (hQ : ∀ s', Unfinished c.fl base s' → s'.work = s.work.step p → Q () s') : Holds c base (emit c p) s Q :=
  (emits h hp ho ok).mono fun _ s' ⟨hu, hw⟩ => hQ s' hu hw

theorem emits_bind {α : Type} {f : Unit → DecM α} {R : α → State → Prop} (h : Unfinished c.fl base s)
    (hp : p.plain = true) (ho : Offer c.fl base s p)
    (ok : ∃ s₁, s.applyData c.x.quote c.fl (c.event p s) = .ok s₁)
    (hf : ∀ s', Unfinished c.fl base s' → s'.work = s.work.step p → Holds c base (f ()) s' R) :
    Holds c base (emit c p >>= f) s R :=
  (emits h hp ho ok).bind fun _ s' ⟨hu, hw⟩ => hf s' hu hw

/-- A terminal event ends the execution with nothing open. -/
theorem emits_end (h : s.Live) (hp : p.terminal = true) (ho : Offer c.fl base s p) :
    Holds c base (emit c p) s fun _ s' => s'.Ended := by
  obtain ⟨hi, hf, hb⟩ := State.expectedIndex_event (c := c) (s := s) (.inr hp)
  have hidx := c.event_index p s hf
  have hdata : ∃ s₁, s.applyData c.x.quote c.fl (c.event p s) = .ok s₁ ∧ s₁.status.terminal = true := by
    cases p <;> first | cases hp; done | exact ⟨_, rfl, rfl⟩
  obtain ⟨s₁, hs₁, hst⟩ := hdata
  have happ : c.apply s (c.event p s) = .ok (s₁.finish (c.event p s)) :=
    State.apply_ok.2 ⟨.inr (hidx.trans hi.symm), s₁, hs₁, rfl⟩
  have hw : (s₁.finish (c.event p s)).work = s.work.closed := by
    rw [State.apply_work happ]
    cases p <;> first | cases hp; done | rfl
  have hne : s.events ≠ 0 := h.begun.ne'
  refine Runs.emit ⟨hidx, h.unended, ?_, ho⟩ happ ⟨Nat.succ_pos _, ?_, ?_⟩
  · show p.begins = true ↔ _
    simp [hb, hne]
  · simp [State.finish, hst]
  · rw [hw]; exact ⟨rfl, rfl, rfl, rfl, rfl⟩

/-! ## Ending -/

theorem fail_ends (h : s.Live) (reason msg node : String) :
    Holds c base (fail c reason msg node) s fun _ s' => s'.Ended :=
  Runs.getSt (Runs.getAux fun _ => emits_end h rfl trivial)

theorem fail_or (h : s.Live) {P : State → Prop} (reason msg node : String) :
    Holds c base (fail c reason msg node) s fun _ s' => s'.Ended ∨ P s' :=
  (fail_ends h reason msg node).mono fun _ _ he => .inl he

theorem cancel_ends (h : s.Live) (p : Cmd.CancelData) : Holds c base (cancel c p) s fun _ s' => s'.Ended :=
  Runs.getSt (Runs.getAux fun _ => emits_end h rfl trivial)

/-- Completing with nothing open ends the execution, as completed or by a failed output expression. -/
theorem complete0_ends (h : s.Live) (hi : s.work.Idle) : Holds c base (complete0 c) s fun _ s' => s'.Ended := by
  refine Runs.getSt ?_
  have done : ∀ out, Holds c base (emit c (.completed { output := out })) s fun _ s' => s'.Ended :=
    fun _ => emits_end h rfl hi
  split
  · split
    · exact fail_ends h _ _ _
    · split
      · exact fail_ends h _ _ _
      · split
        · exact done _
        · split
          · exact done _
          · exact fail_ends h _ _ _
  · split
    · exact done _
    · exact done _

/-! ## Scheduling -/

/-- A new timer: nothing else changes, and the timers before it stay. -/
structure Work.Arms (w : Work) (tm : Timer) (w' : Work) : Prop where
  work : w' = { w with timers := w.timers.insert tm.id tm, n := w.n + 1 }
  kept : Timers.Kept w.timers w'.timers

theorem arms_runs {tm : Timer} (h : Unfinished c.fl base s) (hn : tm.n = s.alloc) (hid : tm.id = timerID s.alloc) :
    Holds c base (emit c (.timer tm)) s fun _ s' => Unfinished c.fl base s' ∧ s.work.Arms tm s'.work := by
  refine emits_then h rfl ⟨hn, by rw [hid, hn]⟩ ⟨_, rfl⟩ fun s' hu hw => ⟨hu, ?_⟩
  have hmax : max s.work.n tm.n = s.work.n + 1 := by rw [hn]; simp [State.alloc]
  have hw' : s'.work = { s.work with timers := s.work.timers.insert tm.id tm, n := s.work.n + 1 } := by
    rw [hw]; simp only [Work.step, hmax]
  refine ⟨hw', ?_⟩
  rw [hw', hid]
  exact h.sound.timers_kept (Nat.lt_succ_self _) tm

theorem timerAt_runs (h : Unfinished c.fl base s) (p : TimerPurpose) (after : Int) (key node : String) (gen attempt : Nat) :
    Holds c base (timerAt c p after key node gen attempt) s fun _ s' => Unfinished c.fl base s' ∧ ∃ tm : Timer,
    s.work.Arms tm s'.work ∧ tm.purpose = p ∧ tm.key = key ∧ tm.generation = gen ∧ tm.attempt = attempt :=
  Runs.getSt ((arms_runs h rfl rfl).mono fun _ _ ⟨hu, ha⟩ => ⟨hu, _, ha, rfl, rfl, rfl, rfl⟩)

/-- What is open once task `t` is at its key. -/
def Work.putTask (w : Work) (t : Task) : Open :=
  { w.toOpen with tasks := w.tasks.insert t.key t, maps := w.raiseNext t.owner t.node t.index }

/-- Task `t` is put at its key and dispatched; beyond that only its map's `next` may move. -/
structure Work.Puts (fl : Flow) (base : Nat) (w : Work) (t : Task) (w' : Work) : Prop where
  opened : w'.toOpen = { w.toOpen with tasks := w.tasks.insert t.key t, maps := w.raiseNext t.owner t.node t.index }
  buffered : w'.buffered = w.buffered
  steps : w'.steps = w.steps
  kept : Timers.Kept w.timers w'.timers
  dispatched : Dispatched fl base w'.timers t

/-- The payload `schedule` emits. -/
def scheduledOf (s : State) (n : Node) (key owner : String) (index : Nat) (item : Raw) (rs : Resumption)
    (gen attempt : Nat) : Event.Scheduled :=
  { key, node := n.id, kind := n.kind, index, generation := if gen = 0 then s.alloc else gen, attempt, owner, item
    resume := rs.value, resumedBy := rs.resumer }

theorem schedule_runs {rs : Resumption} {gen attempt : Nat}
    (h : Unfinished c.fl base s) (hn : c.fl.node n.id = some n)
    (ho : Offer c.fl base s (.scheduled (scheduledOf s n key owner index item rs gen attempt)))
    (hb : base < if gen = 0 then s.alloc else gen) :
    Holds c base (schedule c n key owner index item rs gen attempt) s fun _ s' => Unfinished c.fl base s' ∧
    s.work.Puts c.fl base (s.work.taskOf (scheduledOf s n key owner index item rs gen attempt)) s'.work := by
  refine Runs.getSt ?_
  refine emits_bind h rfl ho ⟨_, rfl⟩ fun s₁ hu hw => ?_
  have hopen : s₁.work.toOpen = (s.work.schedule (scheduledOf s n key owner index item rs gen attempt)).toOpen := by
    rw [hw]; rfl
  have htimers : s₁.work.timers = s.work.timers := by rw [hw]; rfl
  split
  · refine (timerAt_runs hu .timeout n.timeout key n.id _ attempt).mono fun _ s₂ ⟨hu₂, tm, ha, hp, hk, hg, hat⟩ => ?_
    refine ⟨hu₂, ?_, ?_, ?_, ?_, fun _ => hb, fun _ _ _ _ => ?_, fun hs => by cases hs⟩
    · rw [ha.work]; exact hopen
    · rw [ha.work]; show s₁.work.buffered = _; rw [hw]; rfl
    · rw [ha.work]; show s₁.work.steps = _; rw [hw]; rfl
    · exact fun id tm' hid => ha.kept id tm' (htimers ▸ hid)
    · refine ⟨tm.id, tm, ?_, hp, hk, hg, hat⟩
      rw [ha.work]
      simp
  · rename_i hto
    refine Runs.pure ⟨hu, hopen, ?_, ?_, ?_, fun _ => hb, fun _ nd hnd ht => ?_, fun hs => by cases hs⟩
    · rw [hw]; rfl
    · rw [hw]; rfl
    · exact fun id tm hid => htimers.symm ▸ hid
    · have : nd = n := Option.some.inj (hnd.symm.trans hn)
      exact absurd (this ▸ ht) hto

/-- A fresh run of a node at a key where nothing of this log is scheduled. -/
theorem schedule_fresh {rs : Resumption}
    (h : Unfinished c.fl base s) (hn : c.fl.node n.id = some n)
    (hk : ∀ t, s.tasks[key]? = some t → t.status = .scheduled → t.generation ≤ base) :
    Holds c base (schedule c n key owner index item rs 0 1) s fun _ s' => Unfinished c.fl base s' ∧
    s.work.Puts c.fl base (s.work.taskOf (scheduledOf s n key owner index item rs 0 1)) s'.work := by
  refine schedule_runs h hn ⟨.inl ⟨rfl, rfl, hk⟩, n, hn, ?_⟩ (Nat.lt_succ_of_le h.base_le)
  exact_mod_cast n.one_le_maxAttempts

/-- The next attempt of the task waiting for a retry. -/
theorem schedule_retry (h : Unfinished c.fl base s)
    (hn : c.fl.node t.node = some n) (ht : s.tasks[key]? = some t) (hs : t.status = .retrying)
    (hb : base < t.generation) :
    Holds c base (schedule c n t.key t.owner t.index t.item t.resumption t.generation (t.attempt + 1)) s
    fun _ s' => Unfinished c.fl base s' ∧ s.work.Puts c.fl base (s.work.taskOf
    (scheduledOf s n t.key t.owner t.index t.item t.resumption t.generation (t.attempt + 1))) s'.work := by
  have hok := h.sound.task ht
  have hkey : t.key = key := hok.key
  have hg : (if t.generation = 0 then s.alloc else t.generation) = t.generation := if_neg (by have := hok.one_le; omega)
  obtain ⟨nd, hnd, -, hlt⟩ := hok.node
  have hnn : nd = n := Option.some.inj (hnd.symm.trans hn)
  have hself : c.fl.node n.id = some n := (Flow.node_id hn).symm ▸ hn
  refine schedule_runs h hself ⟨.inr ⟨t, ?_, hs, hg, rfl, hb⟩, n, hself, ?_⟩ (by rw [hg]; exact hb)
  · rw [← hkey] at ht; exact ht
  · have := hnn ▸ hlt hs
    show ((t.attempt + 1 : Nat) : Int) ≤ n.maxAttempts
    omega

/-! ## Children -/

theorem childID_numbered (x : Ext) (parent : String) (n : Nat) : Numbered (childID x parent n) n := by
  unfold childID
  simp only
  split
  · exact ⟨parent, rfl⟩
  · exact ⟨x.sha12 parent, rfl⟩

/-- What is open once child `ch` is at `key`. -/
def Work.putChild (w : Work) (key : String) (ch : ChildState) : Open :=
  { w.toOpen with children := w.children.insert key ch, maps := w.raiseNext ch.owner ch.node ch.index }

/-- Child `ch` is put at `key`. -/
structure Work.Hires (w : Work) (key : String) (ch : ChildState) (w' : Work) : Prop where
  opened : w'.toOpen =
    { w.toOpen with children := w.children.insert key ch, maps := w.raiseNext ch.owner ch.node ch.index }
  buffered : w'.buffered = w.buffered
  steps : w'.steps = w.steps
  timers : w'.timers = w.timers

theorem startChild_runs (h : Unfinished c.fl base s)
    (hkey : key = n.id ∨ key ≠ "")
    (hnew : ∀ ch, s.work.children[key]? = some ch → ∃ m ≤ base, Numbered ch.childID m) :
    Holds c base (startChild c n key owner index item) s fun _ s' => s'.Ended ∨ Unfinished c.fl base s' ∧
    ∃ ch : ChildState, ch.node = n.id ∧ ch.owner = owner ∧ ch.index = index ∧
    (∃ m, base < m ∧ Numbered ch.childID m) ∧ s.work.Hires key ch s'.work := by
  refine Runs.getSt ?_
  simp only
  split
  · exact fail_or h.live _ _ _
  · split
    · have hk : (if (if key = n.id then "" else key) = "" then n.id else if key = n.id then "" else key) = key := by
        by_cases he : key = n.id
        · simp [he]
        · have hne : key ≠ "" := hkey.resolve_left he
          simp [he, hne]
      refine emits_then h rfl ⟨rfl, childID_numbered _ _ _, ?_⟩ ⟨_, rfl⟩ fun s' hu hw => .inr ⟨hu, ?_⟩
      · unfold Work.ReplacesInherited
        simp only [Event.Child.instanceKey, hk]
        exact hnew
      refine ⟨⟨childID c.x s.execID s.alloc, n.flow, n.parentClose, n.id, owner, index⟩, rfl, rfl, rfl,
        ⟨s.alloc, Nat.lt_succ_of_le h.base_le, childID_numbered _ _ _⟩, ?_, by rw [hw]; rfl, by rw [hw]; rfl, by rw [hw]; rfl⟩
      rw [hw]
      simp only [Work.step, Work.startChild, Event.Child.instanceKey, hk]
    · exact fail_or h.live _ _ _

/-! ## Entering and leaving nodes -/

/-- Between two nodes: nothing is open. -/
structure Between (fl : Flow) (base : Nat) (s : State) : Prop extends Unfinished fl base s where
  idle : s.work.Idle

/-- What the rest of the recursion does, from states with at least `floor` steps. -/
def Enters (c : Ctx) (base floor : Nat) (k : String → DecM Unit) : Prop :=
  ∀ {s : State} {id : String}, Between c.fl base s → floor ≤ s.steps → Enterable c.fl id →
    Holds c base (k id) s fun _ => Settled c.fl base

/-- An event that leaves what is open as it is. -/
theorem Between.step {s' : State} (h : Between c.fl base s) (hu : Unfinished c.fl base s')
    (hw : s'.work = s.work.step p) (ho : (s.work.step p).toOpen = s.work.toOpen) : Between c.fl base s' :=
  ⟨hu, by rw [hw, ho]; exact h.idle⟩

theorem advance_runs (hk : Enters c base floor k) {dyn : String}
    (hb : Between c.fl base s) (hf : floor ≤ s.steps)
    (hn : ∀ next, next = (if dyn = "" then n.next else dyn) → next ≠ "" → Enterable c.fl next) :
    Holds c base (advance c k n dyn) s fun _ => Settled c.fl base := by
  unfold advance
  by_cases hne : (if dyn = "" then n.next else dyn) = ""
  · rw [if_pos hne]
    exact (complete0_ends hb.live hb.idle).mono fun _ _ he => .inl he
  · rw [if_neg hne]
    exact hk hb hf (hn _ rfl hne)

/-- Leaving a node by its static next. -/
theorem advance_next (wf : WellFormed c.fl) (hk : Enters c base floor k)
    {id : String} (hn : c.fl.node id = some n) (ht : n.type ≠ .fanout) (hb : Between c.fl base s)
    (hf : floor ≤ s.steps) : Holds c base (advance c k n "") s fun _ => Settled c.fl base :=
  advance_runs hk hb hf fun next he hne => by
    simp only [if_true] at he
    subst he
    exact wf.next hn ht hne

theorem Work.raiseNext_empty (h : w.maps = ∅) (owner node : String) (i : Nat) :
    w.raiseNext owner node i = ∅ := by
  unfold Work.raiseNext
  simp [h]

/-! ### Tasks and subflows -/

theorem rested_task (hi : w.Idle) (hp : w.Puts c.fl base t w') (ho : t.owner = "")
    (hk : t.node = t.key) (ht : ∃ nd, c.fl.node t.key = some nd ∧ nd.type = .task) : w'.Rested c.fl base := by
  have htasks : w'.toOpen.tasks = single t.key t := by rw [hp.opened]; simp only [hi.tasks]; rfl
  refine ⟨.task (k := t.key) (t := t) ⟨htasks, ?_, ho, hk, ht⟩, fun k t' hget _ => ?_, fun k a hget => ?_⟩
  · rw [hp.opened]
    exact ⟨rfl, hi.fans, Work.raiseNext_empty hi.maps _ _ _, hi.awaits, hi.children⟩
  · rw [htasks] at hget
    obtain ⟨-, rfl⟩ := get_of_single hget
    exact hp.dispatched
  · rw [hp.opened] at hget
    exact (hi.no_await hget).elim

theorem rested_child (hi : w.Idle) (hh : w.Hires key ch w')
    (ho : ch.owner = "") (hk : ch.node = key) (ht : ∃ nd, c.fl.node key = some nd ∧ nd.type = .subflow) :
    w'.Rested c.fl base := by
  refine ⟨@Progress.child c.fl w' key ch ⟨?_, ?_, ho, hk, ht⟩, fun k t' hget _ => ?_, fun k a hget => ?_⟩
  · rw [hh.opened]; simp only [hi.children]; rfl
  · rw [hh.opened]
    exact ⟨hi.tasks, hi.fans, Work.raiseNext_empty hi.maps _ _ _, hi.awaits, rfl⟩
  · rw [hh.opened] at hget
    exact (hi.no_task hget).elim
  · rw [hh.opened] at hget
    exact (hi.no_await hget).elim

theorem enterTask_runs (hb : Between c.fl base s) (hn : c.fl.node n.id = some n) (ht : n.type = .task) :
    Holds c base (schedule c n n.id "" 0 none {} 0 1) s fun _ => Settled c.fl base := by
  exact (schedule_fresh hb.toUnfinished hn fun t hget => (hb.idle.no_task hget).elim).mono fun _ s' ⟨hu, hp⟩ =>
    .inr ⟨hu, rested_task hb.idle hp rfl rfl ⟨n, hn, ht⟩⟩

theorem enterSubflow_runs (hb : Between c.fl base s) (hn : c.fl.node n.id = some n) (ht : n.type = .subflow) :
    Holds c base (startChild c n n.id "" 0 none) s fun _ => Settled c.fl base := by
  refine (startChild_runs hb.toUnfinished (.inl rfl) fun ch hget => (hb.idle.no_child hget).elim).mono fun _ s' h => ?_
  rcases h with he | ⟨hu, ch, hnode, howner, -, -, hh⟩
  · exact .inl he
  · exact .inr ⟨hu, rested_child hb.idle hh howner hnode ⟨n, hn, ht⟩⟩

/-! ### Awaits -/

theorem consume_runs (wf : WellFormed c.fl) (hk : Enters c base floor k)
    {a : AwaitState} (hn : c.fl.node n.id = some n) (ht : n.type = .await) (hs : n.signal = a.signal)
    (hu : Unfinished c.fl base s) (hf : floor ≤ s.steps) (ha : s.work.OneAwait c.fl n.id a) (hw : s.work.AwaitsTimed) :
    Holds c base (consume c k n) s fun _ => Settled c.fl base := by
  refine Runs.getSt ?_
  split
  · rename_i hnone
    refine Runs.pure (.inr ⟨hu, .await ha fun b hb hname => ?_, fun k t hget => ?_, hw⟩)
    · rw [List.find?_eq_none] at hnone
      exact hnone b hb (by simp [hname, hs])
    · exact (ha.rest.no_task hget).elim
  · rename_i b hb
    have hfound : (s.buffered.find? fun b' => b'.id == b.id).isSome := by
      rw [List.find?_isSome]
      exact ⟨b, List.mem_of_find?_eq_some hb, by simp⟩
    obtain ⟨b', hb'⟩ := Option.isSome_iff_exists.1 hfound
    refine emits_bind hu rfl trivial ?_ fun s' hu' hw' => ?_
    · simp only [State.applyData, Ctx.event, State.applySignalUse, hb']
      exact ⟨_, rfl⟩
    · refine advance_next wf hk hn (by simp [ht]) ⟨hu', ?_⟩ ?_
      · rw [hw']
        refine ⟨ha.rest.tasks, ha.rest.fans, ha.rest.maps, ?_, ha.rest.children⟩
        show s.work.awaits.erase n.id = ∅
        rw [ha.awaits, single_erase]
      · have : s'.work.steps = s.work.steps := by rw [hw']; rfl
        exact hf.trans (le_of_eq this.symm)

/-- Opening the await of `n`, also over one that is already open: it is the only thing open, with its
timer pending, when `consume` looks for a signal. -/
theorem await_then {Q : Unit → State → Prop} (hn : c.fl.node n.id = some n)
    (ht : n.type = .await) (hu : Unfinished c.fl base s) (hrest : ({ s.work.toOpen with awaits := ∅ } : Open).Idle)
    (hkey : ∀ k : String, k ∈ s.work.awaits → k = n.id)
    (hcons : ∀ s' a, Unfinished c.fl base s' → s'.work.OneAwait c.fl n.id a → n.signal = a.signal → s'.work.AwaitsTimed →
      s'.work.buffered = s.work.buffered → s'.work.steps = s.work.steps → Holds c base (consume c k n) s' Q) :
    Holds c base (await c k n) s Q := by
  refine Runs.getSt ?_
  refine emits_bind hu rfl trivial ⟨_, rfl⟩ fun s₁ hu₁ hw₁ => ?_
  have hn₁ : s₁.n = s.n := show s₁.work.n = s.work.n by rw [hw₁]; rfl
  have halloc : s.alloc = s₁.alloc := by simp [State.alloc, hn₁]
  refine (arms_runs hu₁ halloc (by rw [← halloc])).bind fun _ s₂ ⟨hu₂, harms⟩ => ?_
  have hopen : s₂.work.toOpen = { s.work.toOpen with awaits := single n.id ⟨n.signal, timerID s.alloc⟩ } := by
    rw [harms.work]
    show s₁.work.toOpen = _
    rw [hw₁]
    simp only [Work.step]
    have : s.work.awaits.insert n.id ⟨n.signal, timerID s.alloc⟩ = single n.id ⟨n.signal, timerID s.alloc⟩ := by
      apply Std.ExtTreeMap.ext_getElem?
      intro a
      rw [single, get_insert, get_insert, get_empty]
      split
      · rfl
      · rename_i hne
        cases hget : s.work.awaits[a]? with
        | none => rfl
        | some v => exact absurd (hkey a (Std.ExtTreeMap.mem_iff_isSome_getElem?.2 (by rw [hget]; rfl))).symm hne
    rw [← this]
  have hawaits : s₂.work.awaits = single n.id ⟨n.signal, timerID s.alloc⟩ := by rw [hopen]
  refine hcons s₂ ⟨n.signal, timerID s.alloc⟩ hu₂ ⟨hawaits, by rw [hopen]; exact hrest, n, hn, ht, rfl⟩ rfl ?_ ?_ ?_
  · intro k a hget
    rw [hawaits] at hget
    obtain ⟨rfl, rfl⟩ := get_of_single hget
    rw [harms.work]
    exact ⟨_, Std.ExtTreeMap.getElem?_insert_self, rfl, rfl⟩
  · rw [harms.work]; show s₁.work.buffered = _; rw [hw₁]; rfl
  · rw [harms.work]; show s₁.work.steps = _; rw [hw₁]; rfl

theorem await_runs (wf : WellFormed c.fl) (hk : Enters c base floor k)
    (hn : c.fl.node n.id = some n) (ht : n.type = .await) (hb : Between c.fl base s) (hf : floor ≤ s.steps) :
    Holds c base (await c k n) s fun _ => Settled c.fl base := by
  refine await_then hn ht hb.toUnfinished ?_ (fun k hmem => ?_) fun s' a hu' ha hs hw _ hsteps => ?_
  · exact ⟨hb.idle.tasks, hb.idle.fans, hb.idle.maps, rfl, hb.idle.children⟩
  · rw [hb.idle.awaits] at hmem
    exact absurd hmem Std.ExtTreeMap.not_mem_empty
  · exact consume_runs wf hk hn ht hs hu' (hf.trans (le_of_eq hsteps.symm)) ha hw

/-! ### Choices -/

/-- With a default to fall back on, the rule taken is one of the node's. -/
theorem pickRule_mem (x : Ext) (n : Node) (env : Env) : ∀ (i : Nat) (rs : List Rule) (dflt : Option (Nat × Rule)),
    (dflt.isSome ∨ ∃ r ∈ rs, r.default = true) →
    pickRule x n env i rs dflt ≠ .none ∧
    ∀ j r, pickRule x n env i rs dflt = .rule j r → r ∈ rs ∨ ∃ i', dflt = some (i', r)
  | _, [], some (i', r), _ => by simp [pickRule]
  | _, [], none, h => by simp at h
  | i, r :: rs, dflt, h => by
    unfold pickRule
    split
    · -- the last default seen is kept
      obtain ⟨hne, hmem⟩ := pickRule_mem x n env (i + 1) rs (some (i, r)) (.inl rfl)
      refine ⟨hne, fun j r' hr => .inl ?_⟩
      rcases hmem j r' hr with hr | ⟨i', he⟩
      · exact List.mem_cons_of_mem _ hr
      · cases he; exact List.mem_cons_self
    · rename_i hd
      have hrest : dflt.isSome ∨ ∃ r ∈ rs, r.default = true := by
        rcases h with h | ⟨r', hr', hd'⟩
        · exact .inl h
        · rcases List.mem_cons.1 hr' with rfl | hr'
          · exact absurd hd' hd
          · exact .inr ⟨r', hr', hd'⟩
      obtain ⟨hne, hmem⟩ := pickRule_mem x n env (i + 1) rs dflt hrest
      have hcons : ∀ j r', pickRule x n env (i + 1) rs dflt = .rule j r' → r' ∈ r :: rs ∨ ∃ i', dflt = some (i', r') :=
        fun j r' hr => (hmem j r' hr).imp_left (List.mem_cons_of_mem _)
      split
      · split
        · simp
        · exact ⟨hne, hcons⟩
      · simp
      · exact ⟨hne, hcons⟩

theorem choose_runs (wf : WellFormed c.fl) (hk : Enters c base floor k)
    (hn : c.fl.node n.id = some n) (ht : n.type = .choice) (hb : Between c.fl base s) (hf : floor ≤ s.steps) :
    Holds c base (choose c k n) s fun _ => Settled c.fl base := by
  refine Runs.getSt ?_
  obtain ⟨hne, hmem⟩ := pickRule_mem c.x n (s.env none) 0 n.rules none (.inr (wf.default hn ht))
  split
  · rename_i i r hr
    have hrule : r ∈ n.rules := (hmem i r hr).resolve_right (by simp)
    refine emits_bind hb.toUnfinished rfl trivial ⟨_, rfl⟩ fun s' hu hw => ?_
    have hb' := hb.step hu hw rfl
    have hf' : floor ≤ s'.steps := hf.trans (le_of_eq (show s.work.steps = s'.work.steps by rw [hw]; rfl))
    split
    · exact (complete0_ends hb'.live hb'.idle).mono fun _ _ he => .inl he
    · rename_i hend
      exact hk hb' hf' (wf.rule hn hrule hend)
  · refine emits_bind hb.toUnfinished rfl trivial ⟨_, rfl⟩ fun s' hu hw => ?_
    exact fail_or hu.live _ _ _
  · rename_i hr
    exact absurd hr hne

/-! ### Fan-outs -/

theorem get_insertAll {v : V} {m : SMap V} :
    (bs.foldl (fun m b => m.insert b v) m)[b]? = if b ∈ bs then some v else m[b]? := by
  induction bs generalizing m with
  | nil => simp
  | cons a bs ih =>
    rw [List.foldl_cons, ih, get_insert]
    by_cases hb : b ∈ bs
    · simp [hb]
    · by_cases ha : a = b
      · simp [ha]
      · simp [hb, ha, Ne.symm ha]

/-- Starting the branches one after another: branch `b` moves from `todo` to the tasks. -/
theorem Open.FanOpen.put
    (h : w.FanOpen fl fan f (b :: bs)) (hp : w'.toOpen = w.putTask t) (hk : t.key = b) (ho : t.owner = fan) (hn : t.node = b)
    (hb : f.branches[b]? = some .pending) (hbs : b ∉ bs) (ht : ∃ nd, fl.node b = some nd ∧ nd.type = .task) :
    w'.FanOpen fl fan f bs := by
  subst hk
  have htasks : w'.tasks = w.tasks.insert t.key t := by rw [hp]; rfl
  have hchildren : w'.children = w.children := by rw [hp]; rfl
  refine ⟨?_, ?_, h.type, h.join, fun {k t'} hget => ?_, fun {k ch} hget => ?_, fun {b'} hpend hnot => ?_⟩
  · rw [hp]; exact h.fans
  · rw [hp]
    exact ⟨rfl, rfl, Work.raiseNext_empty h.rest.maps _ _ _, h.rest.awaits, rfl⟩
  · rw [htasks] at hget
    rcases get_of_insert hget with ⟨rfl, rfl⟩ | ⟨-, hget⟩
    · exact ⟨ho, hn, hb, hbs, ht⟩
    · obtain ⟨h1, h2, h3, h4, h5⟩ := h.task hget
      exact ⟨h1, h2, h3, fun hm => h4 (List.mem_cons_of_mem _ hm), h5⟩
  · rw [hchildren] at hget
    obtain ⟨h1, h2, h3, h4, h5⟩ := h.child hget
    exact ⟨h1, h2, h3, fun hm => h4 (List.mem_cons_of_mem _ hm), h5⟩
  · rw [htasks, hchildren]
    by_cases he : b' = t.key
    · exact .inl (by simp [he])
    · rcases h.pending hpend (by simp [he, hnot]) with hm | hm
      · exact .inl (Std.ExtTreeMap.mem_insert.2 (.inr hm))
      · exact .inr hm

theorem Open.FanOpen.hire
    (h : w.FanOpen fl fan f (b :: bs)) (hh : w'.toOpen = w.putChild b ch) (ho : ch.owner = fan) (hn : ch.node = b)
    (hb : f.branches[b]? = some .pending) (hbs : b ∉ bs) (ht : ∃ nd, fl.node b = some nd ∧ nd.type = .subflow) :
    w'.FanOpen fl fan f bs := by
  have htasks : w'.tasks = w.tasks := by rw [hh]; rfl
  have hchildren : w'.children = w.children.insert b ch := by rw [hh]; rfl
  refine ⟨?_, ?_, h.type, h.join, fun {k t'} hget => ?_, fun {k ch'} hget => ?_, fun {b'} hpend hnot => ?_⟩
  · rw [hh]; exact h.fans
  · rw [hh]
    exact ⟨rfl, rfl, Work.raiseNext_empty h.rest.maps _ _ _, h.rest.awaits, rfl⟩
  · rw [htasks] at hget
    obtain ⟨h1, h2, h3, h4, h5⟩ := h.task hget
    exact ⟨h1, h2, h3, fun hm => h4 (List.mem_cons_of_mem _ hm), h5⟩
  · rw [hchildren] at hget
    rcases get_of_insert hget with ⟨rfl, rfl⟩ | ⟨-, hget⟩
    · exact ⟨ho, hn, hb, hbs, ht⟩
    · obtain ⟨h1, h2, h3, h4, h5⟩ := h.child hget
      exact ⟨h1, h2, h3, fun hm => h4 (List.mem_cons_of_mem _ hm), h5⟩
  · rw [htasks, hchildren]
    by_cases he : b' = b
    · exact .inr (by simp [he])
    · rcases h.pending hpend (by simp [he, hnot]) with hm | hm
      · exact .inl hm
      · exact .inr (Std.ExtTreeMap.mem_insert.2 (.inr hm))

/-- A dispatched task more leaves the others dispatched. -/
theorem Work.TasksDispatched.put {skip skip' : String → Prop}
    (h : w.TasksDispatched fl base skip) (hp : w.Puts fl base t w') (hs : ∀ k, k ≠ t.key → ¬skip' k → ¬skip k) :
    w'.TasksDispatched fl base skip' := by
  intro k t' hget hskip
  rw [show w'.tasks = w.tasks.insert t.key t by rw [hp.opened]] at hget
  rcases get_of_insert hget with ⟨rfl, rfl⟩ | ⟨hne, hget⟩
  · exact hp.dispatched
  · exact (h k t' hget (hs k (Ne.symm hne) hskip)).kept hp.kept

theorem Work.TasksDispatched.hire {skip : String → Prop}
    (h : w.TasksDispatched fl base skip) (hh : w.Hires key ch w') : w'.TasksDispatched fl base skip := by
  intro k t' hget hskip
  rw [show w'.tasks = w.tasks by rw [hh.opened]] at hget
  rw [hh.timers]
  exact h k t' hget hskip

theorem startBranches_runs (wf : WellFormed c.fl) : ∀ {bs : List String} {s : State},
    Unfinished c.fl base s → s.work.FanOpen c.fl fan f bs → s.work.TasksDispatched c.fl base (fun _ => False) →
    bs.Nodup → (∀ b ∈ bs, f.branches[b]? = some .pending) →
    Holds c base (startBranches c fan bs) s fun _ s' => s'.Ended ∨ Unfinished c.fl base s' ∧
    s'.work.FanOpen c.fl fan f [] ∧ s'.work.TasksDispatched c.fl base fun _ => False
  | [], s, hu, hf, hd, _, _ => Runs.pure (.inr ⟨hu, hf, hd⟩)
  | b :: bs, s, hu, hf, hd, hnd, hpend => by
    obtain ⟨fn, hfn, hft, hbr⟩ := hf.type
    have hmem : b ∈ fn.branches := (hbr b).1 (Std.ExtTreeMap.mem_iff_isSome_getElem?.2 (by rw [hpend b (by simp)]; rfl))
    obtain ⟨bn, hbn, hty⟩ := (wf.fan hfn hft).branch b hmem
    have hid : bn.id = b := Flow.node_id hbn
    rw [List.nodup_cons] at hnd
    unfold startBranches
    refine emits_bind hu rfl trivial ⟨_, rfl⟩ fun s₁ hu₁ hw₁ => ?_
    have hf₁ : s₁.work.FanOpen c.fl fan f (b :: bs) := by rw [hw₁]; exact hf
    have hd₁ : s₁.work.TasksDispatched c.fl base fun _ => False := by rw [hw₁]; exact hd
    simp only [hbn]
    -- either way branch `b` is in flight afterwards, or the execution failed to start its child
    have rest : ∀ s₂ : State, (s₂.Ended ∨ Unfinished c.fl base s₂ ∧ s₂.work.FanOpen c.fl fan f bs ∧
        s₂.work.TasksDispatched c.fl base fun _ => False) →
        Holds c base (do let s ← getSt; if s.status.terminal then pure () else startBranches c fan bs) s₂
          fun _ s' => s'.Ended ∨ Unfinished c.fl base s' ∧ s'.work.FanOpen c.fl fan f [] ∧
            s'.work.TasksDispatched c.fl base fun _ => False := by
      intro s₂ h₂
      refine Runs.getSt ?_
      rcases h₂ with he | ⟨hu₂, hf₂, hd₂⟩
      · rw [if_pos he.status]
        exact Runs.pure (.inl he)
      · rw [if_neg (by simp [hu₂.live.unended])]
        exact startBranches_runs wf hu₂ hf₂ hd₂ hnd.2 fun b' hb' => hpend b' (List.mem_cons_of_mem _ hb')
    split
    · rename_i hsub
      have hnew : ∀ ch, s₁.work.children[b]? = some ch → ∃ m ≤ base, Numbered ch.childID m := fun ch hget =>
        absurd List.mem_cons_self (hf₁.child hget).2.2.2.1
      refine (startChild_runs hu₁ (.inl hid.symm) hnew).bind fun _ s' h => rest s' (h.imp_right ?_)
      rintro ⟨hu', ch, hnode, howner, -, -, hh⟩
      exact ⟨hu', hf₁.hire hh.opened howner (hnode.trans hid) (hpend b (by simp)) hnd.1 ⟨bn, hbn, hsub⟩, hd₁.hire hh⟩
    · rename_i hsub
      refine (schedule_fresh hu₁ (hid.symm ▸ hbn) fun t hget => ?_).bind fun _ s' ⟨hu', hp⟩ =>
        rest s' (.inr ⟨hu', ?_, ?_⟩)
      · exact absurd List.mem_cons_self (hf₁.task hget).2.2.2.1
      · exact hf₁.put hp.opened rfl rfl hid (hpend b (by simp)) hnd.1 ⟨bn, hbn, hty.resolve_right hsub⟩
      · exact hd₁.put hp fun _ _ h => h

theorem fanout_runs (wf : WellFormed c.fl) (hn : c.fl.node n.id = some n) (ht : n.type = .fanout)
    (hb : Between c.fl base s) : Holds c base (fanout c n) s fun _ => Settled c.fl base := by
  have hok := wf.fan hn ht
  obtain ⟨jn, hjo, hjn, hjt, hwne, hwsub⟩ := hok.join
  unfold fanout
  refine emits_bind hb.toUnfinished rfl trivial ⟨_, rfl⟩ fun s₁ hu₁ hw₁ => ?_
  have hall : ∀ b : String, (n.branches.foldl (fun m b => m.insert b .pending) (∅ : SMap BranchStatus))[b]? =
      if b ∈ n.branches then some .pending else none := fun b => by rw [get_insertAll, get_empty]
  rw [hjo] at hw₁
  have hfan : s₁.work.FanOpen c.fl n.id ⟨jn.id, n.branches.foldl (fun m b => m.insert b .pending) ∅⟩ n.branches := by
    rw [hw₁]
    refine ⟨?_, ?_, ⟨n, hn, ht, fun b => ?_⟩, hjo, fun {k t} hget => ?_, fun {k ch} hget => ?_, fun {b} hpend hnot => ?_⟩
    · show s.work.fans.insert _ _ = _
      rw [hb.idle.fans]
      rfl
    · exact ⟨rfl, rfl, hb.idle.maps, hb.idle.awaits, rfl⟩
    · rw [Std.ExtTreeMap.mem_iff_isSome_getElem?, hall b]
      split <;> simp_all
    · exact (hb.idle.no_task hget).elim
    · exact (hb.idle.no_child hget).elim
    · rw [hall b, if_neg hnot] at hpend
      cases hpend
  have hd₁ : s₁.work.TasksDispatched c.fl base fun _ => False := by
    intro k t hget
    rw [hw₁] at hget
    exact (hb.idle.no_task hget).elim
  refine (startBranches_runs wf hu₁ hfan hd₁ hok.nodup fun b hb' => ?_).mono fun _ s' h => h.imp_right ?_
  · exact (hall b).trans (if_pos hb')
  · rintro ⟨hu', hf', hd'⟩
    obtain ⟨w, hw⟩ := List.exists_mem_of_ne_nil _ hwne
    refine ⟨hu', .fan hf' ⟨w, hw, (hall w).trans (if_pos (hwsub w hw))⟩, hd', fun k a hget => ?_⟩
    exact (hf'.rest.no_await hget).elim

/-! ### Maps -/

theorem Work.raiseNext_single (h : w.maps = single m r) (i : Nat) :
    w.raiseNext m m i = single m { r with next := max r.next (i + 1) } := by
  unfold Work.raiseNext
  simp only [h, get_single_self, if_true, single_insert]

/-- The open map of a state, with its outputs. -/
theorem State.maps_of_work (h : s.work.maps = single m r) :
    ∃ run, s.maps[m]? = some run ∧ run.work = r := by
  have hget := s.work_maps_get m
  rw [h, get_single_self] at hget
  cases hm : s.maps[m]? with
  | none => rw [hm] at hget; cases hget
  | some run => rw [hm] at hget; exact ⟨run, rfl, (Option.some.inj hget).symm⟩

theorem size_insert_new {m : SMap V} {k : String} {v : V} (h : m[k]? = none) :
    (m.insert k v).size = m.size + 1 := by
  rw [Std.ExtTreeMap.size_insert, if_neg]
  rw [Std.ExtTreeMap.contains_iff_mem, Std.ExtTreeMap.mem_iff_isSome_getElem?, h]
  simp

theorem size_insert_old {m : SMap V} {k : String} {v w : V} (h : m[k]? = some w) :
    (m.insert k v).size = m.size := by
  rw [Std.ExtTreeMap.size_insert, if_pos]
  rw [Std.ExtTreeMap.contains_iff_mem, Std.ExtTreeMap.mem_iff_isSome_getElem?, h]
  rfl

/-- The next item of a map starts as a task. -/
theorem Open.MapOpen.put (h : w.MapOpen fl m r 0)
    (hp : w'.toOpen = w.putTask t) (hk : t.key = itemKey m r.next) (ho : t.owner = m) (hn : t.node = m)
    (hi : t.index = r.next) (hlt : r.next < r.items.length) (hflow : ∃ nd, fl.node m = some nd ∧ nd.flow = "") :
    w'.MapOpen fl m { r with next := r.next + 1 } 0 := by
  have htasks : w'.tasks = w.tasks.insert t.key t := by rw [hp]; rfl
  have hchildren : w'.children = w.children := by rw [hp]; rfl
  have hnew : w.tasks[t.key]? = none := by
    by_contra hne
    obtain ⟨t', ht'⟩ := Option.ne_none_iff_exists'.1 hne
    obtain ⟨-, -, hidx, hkey, -⟩ := h.task ht'
    have := itemKey_inj (hk.symm.trans hkey)
    omega
  refine ⟨?_, ?_, h.size, hlt, h.type, fun {k t'} hget => ?_, fun {k ch} hget => ?_, ?_⟩
  · rw [hp]
    show w.raiseNext t.owner t.node t.index = _
    rw [ho, hn, hi]
    rw [Work.raiseNext_single h.maps]
    simp
  · rw [hp]; exact ⟨rfl, h.rest.fans, rfl, h.rest.awaits, rfl⟩
  · rw [htasks] at hget
    rcases get_of_insert hget with ⟨rfl, rfl⟩ | ⟨-, hget⟩
    · exact ⟨ho, hn, by simp [hi], by rw [hk, hi], hflow⟩
    · obtain ⟨h1, h2, h3, h4, h5⟩ := h.task hget
      exact ⟨h1, h2, Nat.lt_succ_of_lt h3, h4, h5⟩
  · rw [hchildren] at hget
    obtain ⟨h1, h2, h3, h4, h5⟩ := h.child hget
    exact ⟨h1, h2, Nat.lt_succ_of_lt h3, h4, h5⟩
  · have hc := h.count
    rw [htasks, hchildren, size_insert_new hnew]
    show r.done + _ + _ + 0 = r.next + 1
    omega

theorem Open.MapOpen.next_free {lost : Nat} (h : w.MapOpen fl m r lost) :
    w.children[itemKey m r.next]? = none := by
  by_contra hne
  obtain ⟨ch, hch⟩ := Option.ne_none_iff_exists'.1 hne
  obtain ⟨-, -, hidx, hkey, -⟩ := h.child hch
  have := itemKey_inj hkey
  omega

/-- The next item of a map starts as a child. -/
theorem Open.MapOpen.hire (h : w.MapOpen fl m r 0)
    (hh : w'.toOpen = w.putChild (itemKey m r.next) ch) (ho : ch.owner = m) (hn : ch.node = m) (hi : ch.index = r.next)
    (hlt : r.next < r.items.length) (hflow : ∃ nd, fl.node m = some nd ∧ nd.flow ≠ "") :
    w'.MapOpen fl m { r with next := r.next + 1 } 0 := by
  have htasks : w'.tasks = w.tasks := by rw [hh]; rfl
  have hchildren : w'.children = w.children.insert (itemKey m r.next) ch := by rw [hh]; rfl
  refine ⟨?_, ?_, h.size, hlt, h.type, fun {k t} hget => ?_, fun {k ch'} hget => ?_, ?_⟩
  · rw [hh]
    show w.raiseNext ch.owner ch.node ch.index = _
    rw [ho, hn, hi]
    rw [Work.raiseNext_single h.maps]
    simp
  · rw [hh]; exact ⟨rfl, h.rest.fans, rfl, h.rest.awaits, rfl⟩
  · rw [htasks] at hget
    obtain ⟨h1, h2, h3, h4, h5⟩ := h.task hget
    exact ⟨h1, h2, Nat.lt_succ_of_lt h3, h4, h5⟩
  · rw [hchildren] at hget
    rcases get_of_insert hget with ⟨rfl, rfl⟩ | ⟨-, hget⟩
    · exact ⟨ho, hn, by simp [hi], by rw [hi], hflow⟩
    · obtain ⟨h1, h2, h3, h4, h5⟩ := h.child hget
      exact ⟨h1, h2, Nat.lt_succ_of_lt h3, h4, h5⟩
  · have hc := h.count
    rw [htasks, hchildren, size_insert_new h.next_free]
    show r.done + _ + _ + 0 = r.next + 1
    omega

theorem mapLimit_pos (m : MapRun) : 0 < mapLimit m := by
  unfold mapLimit defaultMapParallel
  split <;> omega

/-- An open map with something in flight, at the end of the scheduling loop. -/
def MapBusy (fl : Flow) (base : Nat) (m : String) (s : State) : Prop :=
  Unfinished fl base s ∧ (∃ r : MapWork, s.work.MapOpen fl m r 0 ∧ r.done < r.next) ∧
    s.work.TasksDispatched fl base fun _ => False

/-- The scheduling loop: it ends with every item started or the limit in flight. -/
theorem mapLoop_runs (hn : c.fl.node n.id = some n) {items : List Json} {limit : Int} (hl : 0 < limit) :
    ∀ {rounds : Nat} {s : State} {r : MapWork}, Unfinished c.fl base s → s.work.MapOpen c.fl n.id r 0 →
    s.work.TasksDispatched c.fl base (fun _ => False) → r.items = items → r.done < items.length →
    items.length ≤ r.next + rounds →
    Holds c base (mapLoop c n items limit rounds) s fun _ s' => s'.Ended ∨ MapBusy c.fl base n.id s'
  | 0, s, r, hu, hm, hd, _, hdone, hr =>
    Runs.pure (.inr ⟨hu, ⟨r, hm, hdone.trans_le hr⟩, hd⟩)
  | rounds + 1, s, r, hu, hm, hd, hitems, hdone, hr => by
    unfold mapLoop
    refine Runs.getSt ?_
    obtain ⟨run, hrun, rfl⟩ := State.maps_of_work hm.maps
    have rest : ∀ s₂ : State, (s₂.Ended ∨ Unfinished c.fl base s₂ ∧
        s₂.work.MapOpen c.fl n.id { run.work with next := run.next + 1 } 0 ∧
        s₂.work.TasksDispatched c.fl base fun _ => False) →
        Holds c base (do let s ← getSt; if s.status.terminal then pure () else mapLoop c n items limit rounds) s₂
          fun _ s' => s'.Ended ∨ MapBusy c.fl base n.id s' := by
      intro s₂ h₂
      refine Runs.getSt ?_
      rcases h₂ with he | ⟨hu₂, hm₂, hd₂⟩
      · rw [if_pos he.status]
        exact Runs.pure (.inl he)
      · rw [if_neg (by simp [hu₂.live.unended])]
        refine mapLoop_runs hn hl hu₂ hm₂ hd₂ hitems hdone ?_
        show items.length ≤ run.next + 1 + rounds
        have : items.length ≤ run.next + (rounds + 1) := hr
        omega
    simp only [hrun]
    split
    · split
      · rename_i hnone
        refine Runs.pure (.inr ⟨hu, ⟨run.work, hm, hdone.trans_le ?_⟩, hd⟩)
        exact List.getElem?_eq_none_iff.1 hnone
      · rename_i item hitem
        have hlt : run.work.next < run.work.items.length := by
          rw [hitems]; exact (List.getElem?_eq_some_iff.1 hitem).1
        split
        · rename_i hflow
          have hnew : ∀ ch, s.work.children[itemKey n.id run.next]? = some ch → ∃ m ≤ base, Numbered ch.childID m := by
            intro ch hget
            cases (show s.work.children[itemKey n.id run.next]? = none from hm.next_free).symm.trans hget
          refine (startChild_runs hu (.inr (itemKey_ne_empty _ _)) hnew).bind fun _ s' h => rest s' (h.imp_right ?_)
          rintro ⟨hu', ch, hnode, howner, hidx, -, hh⟩
          exact ⟨hu', hm.hire hh.opened howner hnode hidx hlt ⟨n, hn, hflow⟩, hd.hire hh⟩
        · rename_i hflow
          refine (schedule_fresh hu hn fun t hget => ?_).bind fun _ s' ⟨hu', hp⟩ => rest s' (.inr ⟨hu', ?_, ?_⟩)
          · obtain ⟨-, -, hidx, hkey, -⟩ := hm.task hget
            have : run.next = t.index := itemKey_inj hkey
            have : t.index < run.next := hidx
            omega
          · exact hm.put hp.opened rfl rfl rfl rfl hlt ⟨n, hn, not_not.1 hflow⟩
          · exact hd.put hp fun _ _ h => h
    · rename_i hfull
      refine Runs.pure (.inr ⟨hu, ⟨run.work, hm, ?_⟩, hd⟩)
      show run.done < run.next
      omega

theorem MapBusy.settled (h : MapBusy c.fl base m s) : Settled c.fl base s := by
  obtain ⟨hu, ⟨r, hm, hlt⟩, hd⟩ := h
  exact .inr ⟨hu, .map hm hlt, hd, fun _ _ hget => (hm.rest.no_await hget).elim⟩

theorem mapProgress_runs (wf : WellFormed c.fl) (hk : Enters c base floor k)
    (hn : c.fl.node n.id = some n) (ht : n.type = .map) (hu : Unfinished c.fl base s)
    (hf : floor ≤ s.steps) (hm : s.work.MapOpen c.fl n.id r 0)
    (hd : s.work.TasksDispatched c.fl base fun _ => False) :
    Holds c base (mapProgress c k n) s fun _ => Settled c.fl base := by
  refine Runs.getSt ?_
  obtain ⟨run, hrun, rfl⟩ := State.maps_of_work hm.maps
  have hcount : run.done + s.work.tasks.size + s.work.children.size + 0 = run.next := hm.count
  have hnext : run.next ≤ run.items.length := hm.next_le
  simp only [hrun]
  split
  · rename_i hdone
    -- every item has its output: nothing is in flight
    have hzero : s.work.tasks.size = 0 ∧ s.work.children.size = 0 := by omega
    have hnone : s.work.children = ∅ := Std.ExtTreeMap.eq_empty_iff_size_eq_zero.2 hzero.2
    have hleft : ∀ (k : String) (ch : ChildState), s.work.children[k]? = some ch → ch.owner ≠ n.id := by
      intro k ch hget
      rw [hnone, get_empty] at hget
      cases hget
    refine emits_bind hu rfl hleft ?_ fun s' hu' hw' => ?_
    · simp only [State.applyData, Ctx.event, State.applyMapDone, hrun]
      exact ⟨_, rfl⟩
    · refine advance_next wf hk hn (by simp [ht]) ⟨hu', ?_⟩ ?_
      · rw [hw']
        refine ⟨?_, hm.rest.fans, ?_, hm.rest.awaits, ?_⟩
        · exact Std.ExtTreeMap.eq_empty_iff_size_eq_zero.2 hzero.1
        · show s.work.maps.erase n.id = ∅
          rw [hm.maps, single_erase]
        · exact Std.ExtTreeMap.eq_empty_iff_size_eq_zero.2 hzero.2
      · have : s'.work.steps = s.work.steps := by rw [hw']; rfl
        exact hf.trans (le_of_eq this.symm)
  · rename_i hdone
    refine (mapLoop_runs hn (mapLimit_pos run) hu hm hd rfl (by show run.done < run.items.length; omega) ?_).mono
      fun _ s' h => h.elim .inl MapBusy.settled
    show run.items.length ≤ run.next + (run.items.length - run.next)
    omega

theorem mapStart_runs (wf : WellFormed c.fl) (hk : Enters c base floor k)
    (hn : c.fl.node n.id = some n) (ht : n.type = .map) (hb : Between c.fl base s) (hf : floor ≤ s.steps) :
    Holds c base (mapStart c k n) s fun _ => Settled c.fl base := by
  refine Runs.getSt ?_
  split
  · exact fail_or hb.live _ _ _
  · split
    · exact fail_or hb.live _ _ _
    · split
      · exact Runs.throw trivial
      · rename_i items _
        refine emits_bind hb.toUnfinished rfl trivial ⟨_, rfl⟩ fun s' hu hw => ?_
        have hopen : s'.work.MapOpen c.fl n.id ⟨items, items.length, 0, 0, n.maxParallel⟩ 0 := by
          rw [hw]
          refine ⟨?_, ⟨rfl, hb.idle.fans, rfl, hb.idle.awaits, rfl⟩, rfl, Nat.zero_le _, ⟨n, hn, ht⟩,
            fun hget => (hb.idle.no_task hget).elim, fun hget => (hb.idle.no_child hget).elim, ?_⟩
          · show s.work.maps.insert _ _ = _
            rw [hb.idle.maps]
            rfl
          · show 0 + s.work.tasks.size + s.work.children.size + 0 = 0
            rw [hb.idle.tasks, hb.idle.children]
            rfl
        refine mapProgress_runs wf hk hn ht hu ?_ hopen fun k t hget => ?_
        · exact hf.trans (le_of_eq (show s.work.steps = s'.work.steps by rw [hw]; rfl))
        · rw [hw] at hget
          exact (hb.idle.no_task hget).elim

/-! ### The recursion -/

/-- One entry, given that every entry nested in it settles. -/
theorem enterStep_runs {id : String} (wf : WellFormed c.fl)
    (hk : s.steps < c.fl.maxStepsOrDefault → Enters c base (s.steps + 1) k) (hb : Between c.fl base s)
    (he : Enterable c.fl id) : Holds c base (enterStep c k id) s fun _ => Settled c.fl base := by
  obtain ⟨n, hn, hty⟩ := he
  obtain rfl : n.id = id := Flow.node_id hn
  refine Runs.getSt ?_
  simp only [hn]
  split
  · exact fail_or hb.live _ _ _
  · rename_i hlim
    have hk : Enters c base (s.steps + 1) k := hk (by omega)
    refine emits_bind hb.toUnfinished rfl trivial ⟨_, rfl⟩ fun s' hu hw => ?_
    have hb' := hb.step hu hw rfl
    have hf : s.steps + 1 ≤ s'.steps := le_of_eq (show s.work.steps + 1 = s'.work.steps by rw [hw]; rfl)
    cases ht : n.type with
    | task => exact enterTask_runs hb' hn ht
    | choice => exact choose_runs wf hk hn ht hb' hf
    | fanout => exact fanout_runs wf hn ht hb'
    | await => exact await_runs wf hk hn ht hb' hf
    | map => exact mapStart_runs wf hk hn ht hb' hf
    | subflow => exact enterSubflow_runs hb' hn ht
    | join => rw [ht] at hty; cases hty
    | unknown t => rw [ht] at hty; cases hty

/-- The budget is enough: when it is used up the step limit has already stopped the recursion. -/
theorem enterFuel_enters (wf : WellFormed c.fl) :
    ∀ fuel, Enters c base (c.fl.maxStepsOrDefault - fuel) (enterFuel c fuel)
  | 0, s, id, hb, hf, he => enterStep_runs wf (fun hlt => absurd hlt (by omega)) hb he
  | fuel + 1, s, id, hb, hf, he => by
    refine enterStep_runs wf (fun hlt s' id' hb' hf' he' => ?_) hb he
    exact enterFuel_enters wf fuel hb' (by omega) he'

theorem enter_enters (wf : WellFormed c.fl) : Enters c base 0 (enter c) := by
  intro s id hb _ he
  exact Runs.getSt (enterFuel_enters wf _ hb (by omega) he)

end

end Packtrail
