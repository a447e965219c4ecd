import Packtrail.Begin
import Packtrail.Encoding

/-
# Executions

`Reachable x fl s log`: state `s` of an execution of `fl` whose log holds the decisions `log`. A step
decides a command, a fork, a continuation or the failure of a decision too large to store
(`Request.perform`); a decision that is refused leaves no trace, one without events changes nothing.
`reload` stands for every other way the engine comes by a state: folding the log, or decoding a
snapshot or a continuation and folding the rest. Such a state is `Alike` the one that was decided.

**`Reachable.tracked`** carries the invariant of `Packtrail.Walk` through whole runs.
-/

namespace Packtrail

open Replay Emitter

/-- What a partition asks to decide. `src` is the state of the fork's source at a sequence of its own
history (`Client.Fork` looks the sequence up there), so it exists. -/
inductive Ask
  | command (cmd : Command)
  | fork (src : State) (source : String) (seq : Nat) (cmdID : String) (writes : SMap Json)

def Ask.decide (x : Ext) (fl : Flow) (s : State) (now : Time) : Ask → Outcome
  | .command cmd => Packtrail.decide x fl s cmd now
  | .fork src source seq cmdID writes => decideFork x fl s src source seq cmdID writes now

/-- Everything that writes to a log: `abort` replaces what was decided for `a` at time `decided`
(`abortTooLarge`, `internal/engine/engine.go:420-455`). -/
inductive Request
  | ask (a : Ask)
  | continueAsNew (seg : Segment) (cmdID : String)
  | abort (a : Ask) (decided : Time) (cmdID reason msg : String)

def Request.perform (x : Ext) (fl : Flow) (s : State) (now : Time) : Request → Outcome
  | .ask a => a.decide x fl s now
  | .continueAsNew seg cmdID => Packtrail.continueAsNew x fl s seg cmdID now
  | .abort a decided cmdID reason msg =>
    match (a.decide x fl s decided).result with
    | .error e => ⟨.error e, s⟩
    | .ok [] => ⟨.ok [], s⟩
    | .ok (first :: _) => Packtrail.abort x fl s (if s.exists then none else some first) cmdID reason msg now

def Ask.source : Ask → Option State
  | .command _ => none
  | .fork src _ _ _ _ => some src

def Request.source : Request → Option State
  | .ask a | .abort a _ _ _ _ => a.source
  | .continueAsNew _ _ => none

/-- A decision of events `evs` is stored as one message; one without events is not stored. -/
def record (log : List (List Event)) (evs : List Event) : List (List Event) :=
  if evs.isEmpty then log else log ++ [evs]

inductive Reachable (x : Ext) (fl : Flow) : State → List (List Event) → Prop
  | new (execID : String) : Reachable x fl (State.new execID) []
  | step {s : State} {log slog : List (List Event)} {evs : List Event} (req : Request) (now : Time)
      (h : Reachable x fl s log) (hsrc : ∀ src, req.source = some src → Reachable x fl src slog)
      (hex : ∀ src, req.source = some src → src.exists = true)
      (hok : (req.perform x fl s now).result = .ok evs) :
      Reachable x fl (req.perform x fl s now).state (record log evs)
  | reload {s s' : State} {log : List (List Event)} (h : Reachable x fl s log) (ha : s.Alike s') : Reachable x fl s' log

/-- The number a fork inherited: what is numbered above it was numbered in the log itself. -/
def baseOf (log : List (List Event)) : Nat :=
  match log.flatten with
  | ev :: _ =>
    match ev.data with
    | .forked d => (unmarshal d.state).n
    | _ => 0
  | [] => 0

/-! ## Reloading keeps the invariants -/

section
variable {fl : Flow} {base : Nat} {s s' : State}

theorem Offer.alike {p : Payload} (ha : s.Alike s') (h : Offer fl base s p) : Offer fl base s' p := by
  have hw : s.work = s'.work := ha.work
  have htasks : s.tasks = s'.tasks := show s.work.tasks = s'.work.tasks by rw [hw]
  have hchildren : s.children = s'.children := show s.work.children = s'.work.children by rw [hw]
  have hfans : s.fans = s'.fans := show s.work.fans = s'.work.fans by rw [hw]
  have hn : s.n = s'.n := ha.n
  cases p with
  | started d => exact ⟨h.1, hw ▸ h.2⟩
  | forked d => exact ⟨h.1, by rw [← hw]; exact h.2⟩
  | continued d =>
    obtain ⟨seg, q, hd⟩ := h
    refine ⟨seg, q, hd.trans ?_⟩
    have hcore : s.core = s'.core := ha
    show ({ s.core with segments := s.core.segments ++ [seg], lastSeq := q } : State).marshal =
      ({ s'.core with segments := s'.core.segments ++ [seg], lastSeq := q } : State).marshal
    rw [hcore]
  | completed d => exact (hw ▸ h : s'.work.Idle)
  | scheduled d => exact ⟨hw ▸ h.1, h.2⟩
  | nodeDone d => exact (hw ▸ h : s'.work.Attempting base d.key d.generation d.attempt)
  | nodeFail d => exact ⟨hw ▸ h.1, htasks ▸ h.2⟩
  | interrupted d => obtain ⟨a, hatt⟩ := h; exact ⟨a, hw ▸ hatt⟩
  | nodeCancel d => obtain ⟨t, ht⟩ := h; exact ⟨t, htasks ▸ ht⟩
  | child d => exact ⟨hn ▸ h.1, h.2.1, hw ▸ h.2.2⟩
  | childDone d => obtain ⟨ch, hch, hid⟩ := h; exact ⟨ch, hchildren ▸ hch, hid⟩
  | timer d => exact ⟨hn ▸ h.1, h.2⟩
  | join d =>
    obtain ⟨hfan, hlist⟩ := h
    exact ⟨hfans ▸ hfan, hlist.trans (by simp only [ownedChildren, hchildren])⟩
  | mapDone d => exact fun k ch hget => h k ch (hchildren ▸ hget)
  | mapAbort d => exact Eq.trans h (by simp only [ownedChildren, hchildren])
  | _ => exact h

theorem Promise.alike {ev : Event} (ha : s.Alike s') (h : Promise fl base s ev) : Promise fl base s' ev :=
  ⟨ha.events ▸ h.index, ha.status ▸ h.unended, ha.events ▸ h.begins, h.offer.alike ha⟩

theorem State.Absent.alike (ha : s.Alike s') (h : s.Absent) : s'.Absent :=
  ⟨ha.events ▸ h.events, ha.status ▸ h.status, ha.work ▸ h.work⟩

theorem Settled.alike (ha : s.Alike s') (h : Settled fl base s) : Settled fl base s' := by
  rcases h with he | ⟨hu, hr⟩
  · exact .inl ⟨ha.events ▸ he.begun, ha.status ▸ he.status, ha.work ▸ he.idle⟩
  · exact .inr ⟨⟨⟨ha.events ▸ hu.live.begun, ha.status ▸ hu.live.status⟩, ha.work ▸ hu.sound, ha.n ▸ hu.base_le⟩,
      ha.work ▸ hr⟩

theorem Settled.exists (h : Settled fl base s) : s.exists = true := by
  rcases h with he | ⟨hu, -⟩
  · simpa [State.exists] using he.begun
  · exact hu.live.exists

end

/-! ## What a decision does -/

/-- A decision from `s`: promised events that lead to a settled state, no events and no change, or an
error the source returns on purpose. -/
def Decides (x : Ext) (fl : Flow) (base : Nat) (s : State) (o : Outcome) : Prop :=
  (∃ evs, o.result = .ok evs ∧ Path (State.apply x.quote fl) (Promise fl base) s evs o.state ∧
    (Settled fl base o.state ∨ evs = [] ∧ o.state = s)) ∨
  ∃ e, o.result = .error e ∧ e.benign

/-- What a run says of the decision it is. -/
theorem Runs.decision {c : Ctx} {G : State → Event → Prop} {B : Err → Prop} {m : DecM Unit} {s : State}
    {Q : Unit → State → Prop} (h : Runs c.apply G B m s Q) {evs : List Event} (hok : (runDecision m s).result = .ok evs) :
    Path (State.apply c.x.quote c.fl) G s evs (runDecision m s).state ∧ Q () (runDecision m s).state := by
  have h := h [] []
  unfold runDecision at hok ⊢
  revert h hok
  cases m { st := s, out := [], aux := [] } with
  | error e d => intro hok; cases hok
  | ok a d =>
    intro hok hr
    cases hok
    obtain ⟨⟨evs', ho, hp⟩, hq⟩ := ran_ok.1 hr
    rw [List.nil_append] at ho
    exact ⟨by rw [ho]; exact hp, hq⟩

theorem Runs.refused {c : Ctx} {G : State → Event → Prop} {B : Err → Prop} {m : DecM Unit} {s : State}
    {Q : Unit → State → Prop} (h : Runs c.apply G B m s Q) {e : Err} (hbad : (runDecision m s).result = .error e) : B e := by
  have h := h [] []
  unfold runDecision at hbad
  revert h hbad
  cases m { st := s, out := [], aux := [] } with
  | error e' d =>
    intro hbad hr
    cases hbad
    exact ran_error.1 hr
  | ok a d => intro hbad; cases hbad

/-- `Decide` runs the command's program or does nothing. -/
theorem decide_cases (x : Ext) (fl : Flow) (s : State) (cmd : Command) (now : Time) :
    decide x fl s cmd now = runDecision (decideData ⟨x, fl, now, cmd.id⟩ cmd.data) s ∨
      decide x fl s cmd now = ⟨.ok [], s⟩ ∨ ∃ e, (decide x fl s cmd now).result = .error e := by
  unfold decide
  simp only
  split
  · exact .inl rfl
  · split
    · exact .inr (.inr ⟨_, rfl⟩)
    · split
      · split
        · exact .inr (.inr ⟨_, rfl⟩)
        · exact .inr (.inl rfl)
      · exact .inl rfl

section
variable {c : Ctx} {base : Nat} {s : State}

theorem Holds.result {m : DecM Unit} {Q : Unit → State → Prop} (h : Holds c base m s Q) :
    (∃ evs, (runDecision m s).result = .ok evs ∧
      Path (State.apply c.x.quote c.fl) (Promise c.fl base) s evs (runDecision m s).state ∧ Q () (runDecision m s).state) ∨
    ∃ e, (runDecision m s).result = .error e ∧ e.benign := by
  cases hres : (runDecision m s).result with
  | ok evs => exact .inl ⟨evs, rfl, Runs.decision h hres⟩
  | error e => exact .inr ⟨e, rfl, Runs.refused h hres⟩

theorem Holds.decides {m : DecM Unit} (h : Holds c base m s fun _ => Settled c.fl base) :
    Decides c.x c.fl base s (runDecision m s) :=
  h.result.imp_left fun ⟨evs, hr, hp, hq⟩ => ⟨evs, hr, hp, .inl hq⟩

theorem Decides.nothing {x : Ext} {fl : Flow} {o : Outcome} (hr : o.result = .ok []) (hs : o.state = s) :
    Decides x fl base s o :=
  .inl ⟨[], hr, by rw [hs]; exact .nil s, .inr ⟨rfl, hs⟩⟩

/-- Every command on an unfinished execution. -/
theorem decideData_runs (wf : WellFormed c.fl) (hu : Unfinished c.fl base s) (hr : s.work.Rested c.fl base) (d : CmdData) :
    Holds c base (decideData c d) s fun _ => Settled c.fl base := by
  cases d with
  | start p => exact start_again hu.live.exists (.inr ⟨hu, hr⟩) p
  | complete p => exact (complete_runs wf hu hr p).mono fun _ _ h => h.1
  | fail p => exact (failTask_runs wf hu hr p).mono fun _ _ h => h.1
  | interrupt p => exact (interrupt_runs hu hr p).mono fun _ _ h => h.1
  | resume p => exact resume_runs hu hr p
  | signal p => exact signal_runs wf hu hr p
  | cancel p => exact (cancel_ends hu.live p).mono fun _ _ he => .inl he
  | timer p => exact (timer_runs wf hu hr p).mono fun _ _ h => h.1
  | childDone p => exact (childDone_runs wf hu hr p).mono fun _ _ h => h.1
  | update writes => exact update_runs hu hr writes
  | undecodable t e => exact Runs.throw trivial
  | operational t => exact Runs.throw trivial

theorem decideData_start (d : CmdData) (hd : d.isStart = true) : (∃ p, d = .start p) ∨ ∃ t e, d = .undecodable t e := by
  cases d <;> simp_all [CmdData.isStart]

end

section
variable {x : Ext} {fl : Flow} {base : Nat} {s : State}

theorem decide_settled (wf : WellFormed fl) (h : Settled fl base s) (cmd : Command) (now : Time) :
    Decides x fl base s (decide x fl s cmd now) := by
  unfold decide
  by_cases hst : cmd.data.isStart = true
  · rw [if_pos hst]
    rcases decideData_start _ hst with ⟨p, hp⟩ | ⟨t, e, hp⟩
    · rw [hp]
      exact Holds.decides (c := ⟨x, fl, now, cmd.id⟩) (start_again h.exists h p)
    · rw [hp]
      exact .inr ⟨_, rfl, trivial⟩
  · rw [if_neg hst, if_neg (by simp [h.exists])]
    rcases h with he | ⟨hu, hr⟩
    · rw [if_pos he.status]
      split
      · exact .inr ⟨_, rfl, trivial⟩
      · exact .nothing rfl rfl
    · rw [if_neg (by simp [hu.live.unended])]
      exact Holds.decides (c := ⟨x, fl, now, cmd.id⟩) (decideData_runs wf hu hr _)

theorem decide_absent (wf : WellFormed fl) (h : s.Absent) (cmd : Command) (now : Time) :
    Decides x fl 0 s (decide x fl s cmd now) := by
  unfold decide
  by_cases hst : cmd.data.isStart = true
  · rw [if_pos hst]
    rcases decideData_start _ hst with ⟨p, hp⟩ | ⟨t, e, hp⟩
    · rw [hp]
      exact Holds.decides (c := ⟨x, fl, now, cmd.id⟩) ((start_runs wf h p).mono fun _ _ h => h.1)
    · rw [hp]
      exact .inr ⟨_, rfl, trivial⟩
  · rw [if_neg hst, if_pos (by simp [h.not_exists])]
    exact .inr ⟨_, rfl, trivial⟩

/-- What a request needs to know about the source of a fork. -/
def SourceOk (fl : Flow) (src : Option State) : Prop := ∀ st, src = some st → ∃ b, Settled fl b st

theorem ask_settled (wf : WellFormed fl) (h : Settled fl base s) (a : Ask) (now : Time) :
    Decides x fl base s (a.decide x fl s now) := by
  cases a with
  | command cmd => exact decide_settled wf h cmd now
  | fork src source seq cmdID writes =>
    simp only [Ask.decide, decideFork, h.exists, if_true]
    exact .nothing rfl rfl

theorem ask_absent (wf : WellFormed fl) (h : s.Absent) (a : Ask) (hsrc : SourceOk fl a.source) (now : Time) :
    ∃ b, Decides x fl b s (a.decide x fl s now) := by
  cases a with
  | command cmd => exact ⟨0, decide_absent wf h cmd now⟩
  | fork src source seq cmdID writes =>
    obtain ⟨b, hb⟩ := hsrc src rfl
    simp only [Ask.decide, decideFork, h.not_exists, Bool.false_eq_true, if_false]
    exact ⟨src.n, Holds.decides (c := ⟨x, fl, now, cmdID⟩)
      ((forkProg_runs wf h hb source seq writes).mono fun _ _ h => h.1)⟩

theorem perform_settled (wf : WellFormed fl) (h : Settled fl base s) (req : Request) (now : Time) :
    Decides x fl base s (req.perform x fl s now) := by
  cases req with
  | ask a => exact ask_settled wf h a now
  | continueAsNew seg cmdID =>
    simp only [Request.perform, Packtrail.continueAsNew, h.exists, Bool.not_true, Bool.false_or]
    rcases h with he | ⟨hu, hr⟩
    · rw [if_pos he.status]
      exact .nothing rfl rfl
    · rw [if_neg (by simp [hu.live.unended])]
      exact Holds.decides (c := ⟨x, fl, now, cmdID⟩) (continued_runs hu hr)
  | abort a decided cmdID reason msg =>
    have hask := ask_settled (x := x) wf h a decided
    simp only [Request.perform]
    split
    · rename_i e he
      rcases hask with ⟨evs, hr, -⟩ | ⟨e', hr, hb⟩
      · rw [he] at hr; cases hr
      · rw [he] at hr; cases hr; exact .inr ⟨_, rfl, hb⟩
    · exact .nothing rfl rfl
    · exact Holds.decides (c := ⟨x, fl, now, cmdID⟩) (abort_exists h _ reason msg)

variable {evs : List Event} {s' : State} {log : List (List Event)}

/-- The first event of an execution that does not exist yet. -/
theorem first_begins {ev : Event} (ha : s.Absent)
    (hp : Path (State.apply x.quote fl) (Promise fl base) s (ev :: evs) s') :
    ev.data.begins = true ∧ Offer fl base s ev.data := by
  cases hp with
  | cons guard _ _ => exact ⟨guard.begins.2 ha.events, guard.offer⟩

theorem perform_absent (wf : WellFormed fl) (h : s.Absent) (req : Request) (hsrc : SourceOk fl req.source) (now : Time) :
    ∃ b, Decides x fl b s (req.perform x fl s now) := by
  cases req with
  | ask a => exact ask_absent wf h a hsrc now
  | continueAsNew seg cmdID =>
    simp only [Request.perform, Packtrail.continueAsNew, h.not_exists, Bool.not_false, Bool.true_or, if_true]
    exact ⟨0, .nothing rfl rfl⟩
  | abort a decided cmdID reason msg =>
    obtain ⟨b, hask⟩ := ask_absent (x := x) wf h a hsrc decided
    simp only [Request.perform]
    split
    · rename_i e he
      rcases hask with ⟨evs, hr, -⟩ | ⟨e', hr, hb⟩
      · rw [he] at hr; cases hr
      · rw [he] at hr; cases hr; exact ⟨0, .inr ⟨_, rfl, hb⟩⟩
    · exact ⟨0, .nothing rfl rfl⟩
    · rename_i first rest hr
      rcases hask with ⟨evs, hr', hp, -⟩ | ⟨e', hr', -⟩
      · rw [hr] at hr'
        cases hr'
        obtain ⟨hbeg, hoff⟩ := first_begins h hp
        simp only [h.not_exists, Bool.false_eq_true, if_false]
        exact ⟨b, Holds.decides (c := ⟨x, fl, now, cmdID⟩) (abort_absent h hbeg hoff reason msg)⟩
      · rw [hr] at hr'; cases hr'

/-! ## Whole runs -/

/-- The invariant of a run: nothing was written, or a promised log leads to the settled state. -/
inductive Tracked (x : Ext) (fl : Flow) (s : State) (log : List (List Event)) : Prop
  | absent (hlog : log = []) (h : s.Absent) {execID : String} (hs : (State.new execID).Alike s)
  | present (hs : Settled fl (baseOf log) s) {execID : String} {s₁ : State}
      (hp : Path (State.apply x.quote fl) (Promise fl (baseOf log)) (State.new execID) log.flatten s₁) (ha : s₁.Alike s)

theorem baseOf_append (h : log.flatten ≠ []) (evs : List Event) :
    baseOf (log ++ [evs]) = baseOf log := by
  unfold baseOf
  rw [List.flatten_append]
  cases hl : log.flatten with
  | nil => exact absurd hl h
  | cons ev rest => rfl

/-- The first decision fixes the base. -/
theorem baseOf_first (ha : s.Absent) (hne : evs ≠ [])
    (hp : Path (State.apply x.quote fl) (Promise fl base) s evs s') : baseOf [evs] = base := by
  cases evs with
  | nil => exact absurd rfl hne
  | cons ev rest =>
    obtain ⟨hbeg, hoff⟩ := first_begins ha hp
    unfold baseOf
    simp only [List.flatten_cons, List.cons_append]
    cases hd : ev.data with
    | started d => rw [hd] at hoff; exact hoff.1.symm
    | forked d => rw [hd] at hoff; exact hoff.1.symm
    | _ => rw [hd] at hbeg; cases hbeg

theorem Path.alike_of {G : State → Event → Prop} (hG : ∀ {s s' ev}, s.Alike s' → G s ev → G s' ev)
    {t : State} (h : s.Alike s') (hp : Path (State.apply x.quote fl) G s evs t) :
    ∃ t', Path (State.apply x.quote fl) G s' evs t' ∧ t.Alike t' := by
  refine @Path.congr State Event Err (State.apply x.quote fl) G s s' evs State.Alike ?_ ?_ t h hp
  · exact fun h ht => h.apply ht
  · exact fun h g => hG h g

theorem Path.alike {t : State} (h : s.Alike s')
    (hp : Path (State.apply x.quote fl) (Promise fl base) s evs t) :
    ∃ t', Path (State.apply x.quote fl) (Promise fl base) s' evs t' ∧ t.Alike t' :=
  Path.alike_of (fun h hG => hG.alike h) h hp

theorem flatten_ne_of_settled {execID : String} {s₁ : State} (hs : Settled fl base s)
    (hp : Path (State.apply x.quote fl) (Promise fl base) (State.new execID) log.flatten s₁) (ha : s₁.Alike s) :
    log.flatten ≠ [] := by
  intro he
  rw [he] at hp
  cases hp
  have hev : s.events = 0 := ha.events.symm
  have := hs.exists
  simp [State.exists, hev] at this

/-- A decision that wrote nothing left the state as it was. -/
theorem Decides.unchanged {o : Outcome} (h : Decides x fl base s o) (hr : o.result = .ok []) : o.state = s := by
  rcases h with ⟨evs, hr', hp, -⟩ | ⟨e, hr', -⟩
  · cases hr.symm.trans hr'
    exact hp.eq_of_nil
  · cases hr.symm.trans hr'

theorem Decides.wrote {o : Outcome} (h : Decides x fl base s o) (hr : o.result = .ok evs) (hne : evs ≠ []) :
    Path (State.apply x.quote fl) (Promise fl base) s evs o.state ∧ Settled fl base o.state := by
  rcases h with ⟨evs', hr', hp, hset⟩ | ⟨e, hr', -⟩
  · cases hr.symm.trans hr'
    exact ⟨hp, hset.resolve_right fun h => hne h.1⟩
  · cases hr.symm.trans hr'

theorem Tracked.perform (wf : WellFormed fl) (h : Tracked x fl s log) (req : Request)
    (hsrc : SourceOk fl req.source) (now : Time) (hok : (req.perform x fl s now).result = .ok evs) :
    Tracked x fl (req.perform x fl s now).state (record log evs) := by
  unfold record
  cases h with
  | @absent hlog habs execID hnew =>
    subst hlog
    obtain ⟨b, hd⟩ := perform_absent (x := x) wf habs req hsrc now
    by_cases hne : evs = []
    · subst hne
      rw [hd.unchanged hok]
      exact .absent rfl habs hnew
    · obtain ⟨hp, hset⟩ := hd.wrote hok hne
      rw [if_neg (by simpa using hne), List.nil_append]
      have hbase := baseOf_first habs hne hp
      subst hbase
      obtain ⟨t, hp', ht⟩ := Path.alike hnew.symm hp
      exact .present hset (by rw [List.flatten_singleton]; exact hp') ht.symm
  | @present hs execID s₁ hp ha =>
    have hd := perform_settled (x := x) wf hs req now
    by_cases hne : evs = []
    · subst hne
      rw [hd.unchanged hok]
      exact .present hs hp ha
    · obtain ⟨hp', hset⟩ := hd.wrote hok hne
      rw [if_neg (by simpa using hne)]
      have hbase := baseOf_append (flatten_ne_of_settled hs hp ha) evs
      obtain ⟨t, hp₂, ht⟩ := Path.alike ha.symm hp'
      have hpath : Path (State.apply x.quote fl) (Promise fl (baseOf log)) (State.new execID) (log ++ [evs]).flatten t := by
        rw [List.flatten_append, List.flatten_singleton]
        exact hp.append hp₂
      rw [← hbase] at hpath hset
      exact .present hset hpath ht.symm

theorem Tracked.alike (h : Tracked x fl s log) (ha : s.Alike s') :
    Tracked x fl s' log := by
  cases h with
  | absent hlog habs hnew => exact .absent hlog (habs.alike ha) (hnew.trans ha)
  | present hs hp hs₁ => exact .present (hs.alike ha) hp (hs₁.trans ha)

theorem Tracked.settled (h : Tracked x fl s log) (he : s.exists = true) :
    Settled fl (baseOf log) s := by
  cases h with
  | absent _ habs _ => rw [habs.not_exists] at he; cases he
  | present hs _ _ => exact hs

theorem Tracked.idle_or_rested (h : Tracked x fl s log) :
    s.work.Idle ∨ Unfinished fl (baseOf log) s ∧ s.work.Rested fl (baseOf log) := by
  cases h with
  | absent _ habs _ => exact .inl (habs.work ▸ Work.none_idle)
  | present hs _ _ => exact hs.imp_left fun he => he.idle

/-- **Every reachable state is tracked.** -/
theorem Reachable.tracked (wf : WellFormed fl) (h : Reachable x fl s log) :
    Tracked x fl s log := by
  induction h with
  | new execID => exact .absent rfl (State.absent_new execID) (.refl _)
  | step req now _ _ hex hok ih ihsrc =>
    exact ih.perform wf req (fun src hs => ⟨_, (ihsrc src hs).settled (hex src hs)⟩) now hok
  | reload _ ha ih => exact ih.alike ha

/-- The source of a fork is an execution of the same flow, at a decision of its history. -/
def Request.Sourced (x : Ext) (fl : Flow) (req : Request) : Prop :=
  ∀ src, req.source = some src → src.exists = true ∧ ∃ slog, Reachable x fl src slog

theorem Request.Sourced.ok (wf : WellFormed fl) {req : Request} (h : req.Sourced x fl) : SourceOk fl req.source := by
  intro src hs
  obtain ⟨hex, slog, hr⟩ := h src hs
  exact ⟨_, (hr.tracked wf).settled hex⟩

/-- A decision that wrote events, numbered as the log goes on. -/
theorem Tracked.wrote (wf : WellFormed fl) (h : Tracked x fl s log) (req : Request)
    (hsrc : SourceOk fl req.source) (now : Time) (hok : (req.perform x fl s now).result = .ok evs)
    (hne : evs ≠ []) :
    Path (State.apply x.quote fl) (Promise fl (baseOf (log ++ [evs]))) s evs (req.perform x fl s now).state ∧
    (log.flatten = [] ∨ baseOf (log ++ [evs]) = baseOf log) := by
  cases h with
  | absent hlog habs hnew =>
    subst hlog
    obtain ⟨b, hd⟩ := perform_absent (x := x) wf habs req hsrc now
    obtain ⟨hp, -⟩ := hd.wrote hok hne
    rw [List.nil_append, baseOf_first habs hne hp]
    exact ⟨hp, .inl rfl⟩
  | present hs hp ha =>
    have hd := perform_settled (x := x) wf hs req now
    have hbase := baseOf_append (flatten_ne_of_settled hs hp ha) evs
    rw [hbase]
    exact ⟨(hd.wrote hok hne).1, .inr rfl⟩

/-- **What every decision keeps to, the log keeps to**: `G` may look at the state each event is emitted in. -/
theorem Reachable.path (wf : WellFormed fl) {G : State → Event → Prop} (alike : ∀ {s s' ev}, s.Alike s' → G s ev → G s' ev)
    (decision : ∀ {s log evs} {req : Request} {now}, Reachable x fl s log → req.Sourced x fl →
    (req.perform x fl s now).result = .ok evs →
    Path (State.apply x.quote fl) G s evs (req.perform x fl s now).state)
    (h : Reachable x fl s log) :
    ∃ execID s₁, Path (State.apply x.quote fl) (fun s ev => Promise fl (baseOf log) s ev ∧ G s ev) (State.new execID)
    log.flatten s₁ ∧ s₁.Alike s := by
  induction h with
  | new execID => exact ⟨execID, _, .nil _, .refl _⟩
  | reload _ ha ih =>
    obtain ⟨execID, s₁, hp, hs₁⟩ := ih
    exact ⟨execID, s₁, hp, hs₁.trans ha⟩
  | @step s log slog evs req now h hsrc hex hok ih _ =>
    obtain ⟨execID, s₁, hp, ha⟩ := ih
    have hfrom : req.Sourced x fl := fun src hs => ⟨hex src hs, slog, hsrc src hs⟩
    have hg := decision h hfrom hok
    unfold record
    by_cases hne : evs = []
    · subst hne
      rw [hg.eq_of_nil]
      exact ⟨execID, s₁, hp, ha⟩
    · rw [if_neg (by simpa using hne), List.flatten_append, List.flatten_singleton]
      obtain ⟨hw, hbase⟩ := (h.tracked wf).wrote wf req (hfrom.ok wf) now hok hne
      obtain ⟨t, hp₂, ht⟩ := Path.alike_of (fun h hG => ⟨hG.1.alike h, alike h hG.2⟩) ha.symm (hw.and hg)
      refine ⟨execID, t, Path.append ?_ hp₂, ht.symm⟩
      rcases hbase with he | he
      · rw [he] at hp ⊢
        cases hp
        exact .nil _
      · rw [he]
        exact hp

/-- Every decision on a reachable state. -/
theorem Reachable.decides (wf : WellFormed fl) (h : Reachable x fl s log) {req : Request}
    (hsrc : req.Sourced x fl) (now : Time) : ∃ b, Decides x fl b s (req.perform x fl s now) := by
  cases h.tracked wf with
  | absent _ habs _ => exact perform_absent wf habs req (hsrc.ok wf) now
  | present hs _ _ => exact ⟨_, perform_settled wf hs req now⟩

end

end Packtrail
