import Packtrail.Reactions
import Packtrail.Fitting
import Packtrail.Decisions

/-
# Histories through forks

The log of a forked execution begins with the state of its source, so what happened to an instance
before the fork is in the source's log. `Lineage x fl s line` follows an execution back through its
forks: `line` holds every decision that led to `s`, the source's before the fork among them, with the
request each was taken for. **`Reachable.lineage`** says that every execution has one, and
**`Lasting.lineage`** and **`Lasting.turn`** carry what every event keeps to every
state and to every event of a decision.
-/

namespace Packtrail

open Replay

/-- One decision: what was asked and the events it wrote. -/
structure Entry where
  req : Request
  evs : List Event

/-- The events of a history, each with the request it was decided for. -/
def moves (line : List Entry) : List (Request × Event) := line.flatMap fun e => e.evs.map fun ev => (e.req, ev)

theorem moves_snoc (line : List Entry) (e : Entry) : moves (line ++ [e]) = moves line ++ e.evs.map fun ev => (e.req, ev) := by
  simp [moves]

inductive Lineage (x : Ext) (fl : Flow) : State → List Entry → Prop
  | new (execID : String) : Lineage x fl (State.new execID) []
  | step {s : State} {line : List Entry} {evs : List Event} (req : Request) (now : Time) (h : Lineage x fl s line)
      (hown : req.source = none) (hok : (req.perform x fl s now).result = .ok evs) :
      Lineage x fl (req.perform x fl s now).state (line ++ [⟨req, evs⟩])
  | fork {s src : State} {line sline : List Entry} {evs : List Event} (req : Request) (now : Time)
      (h : Lineage x fl s line) (habs : s.exists = false) (hsrc : req.source = some src) (hs : Lineage x fl src sline)
      (hex : src.exists = true) (hok : (req.perform x fl s now).result = .ok evs) (hne : evs ≠ []) :
      Lineage x fl (req.perform x fl s now).state (sline ++ [⟨req, evs⟩])
  | reload {s s' : State} {line : List Entry} (h : Lineage x fl s line) (ha : s.Alike s') : Lineage x fl s' line

section
variable {x : Ext} {fl : Flow} {s : State} {line : List Entry}

theorem Lineage.reachable (h : Lineage x fl s line) : ∃ log, Reachable x fl s log := by
  induction h with
  | new execID => exact ⟨[], .new execID⟩
  | reload _ ha ih =>
    obtain ⟨log, hr⟩ := ih
    exact ⟨log, hr.reload ha⟩
  | step req now _ hown hok ih =>
    obtain ⟨log, hr⟩ := ih
    exact ⟨_, @Reachable.step x fl _ _ [] _ req now hr (fun _ hs => by simp [hown] at hs) (fun _ hs => by simp [hown] at hs) hok⟩
  | fork req now _ _ hsrc _ hex hok _ ih ihs =>
    obtain ⟨log, hr⟩ := ih
    obtain ⟨slog, hsr⟩ := ihs
    refine ⟨_, @Reachable.step x fl _ _ slog _ req now hr (fun src hs => ?_) (fun src hs => ?_) hok⟩
    · cases hsrc.symm.trans hs
      exact hsr
    · cases hsrc.symm.trans hs
      exact hex

/-- A fork of an execution that exists is not taken. -/
theorem Request.perform_joined {req : Request} {src : State} {now : Time} {evs : List Event} (he : s.exists = true)
    (hsrc : req.source = some src) (hok : (req.perform x fl s now).result = .ok evs) :
    evs = [] ∧ (req.perform x fl s now).state = s := by
  have hask : ∀ {a : Ask} (t : Time), a.source = some src → a.decide x fl s t = ⟨.ok [], s⟩ := by
    intro a t ha
    cases a with
    | command cmd => cases ha
    | fork => simp only [Ask.decide, decideFork, he, if_true]
  cases req with
  | ask a =>
    have hd := hask now hsrc
    simp only [Request.perform, hd] at hok ⊢
    exact ⟨(Except.ok.inj hok).symm, trivial⟩
  | continueAsNew seg cmdID => cases hsrc
  | abort a decided cmdID reason msg =>
    have hd := hask decided hsrc
    simp only [Request.perform, hd] at hok ⊢
    exact ⟨(Except.ok.inj hok).symm, trivial⟩

theorem record_flatten (log : List (List Event)) (evs : List Event) : (record log evs).flatten = log.flatten ++ evs := by
  unfold record
  cases evs <;> simp

/-- **Every execution has a history through its forks**, which ends with its own log. -/
theorem Reachable.lineage (wf : WellFormed fl) {log : List (List Event)} (h : Reachable x fl s log) :
    ∃ line before, Lineage x fl s line ∧ (line.map Entry.evs).flatten = before ++ log.flatten := by
  induction h with
  | new execID => exact ⟨[], [], .new execID, rfl⟩
  | reload _ ha ih =>
    obtain ⟨line, before, hl, he⟩ := ih
    exact ⟨line, before, hl.reload ha, he⟩
  | @step s log slog evs req now h hsrc hex hok ih ihsrc =>
    obtain ⟨line, before, hl, he⟩ := ih
    cases hs : req.source with
    | none =>
      refine ⟨line ++ [⟨req, evs⟩], before, hl.step req now hs hok, ?_⟩
      simp [record_flatten, he]
    | some src =>
      by_cases hexists : s.exists = true
      · obtain ⟨rfl, hstate⟩ := Request.perform_joined hexists hs hok
        rw [hstate]
        exact ⟨line, before, hl, he⟩
      · have hlog : log = [] := by
          cases h.tracked wf with
          | absent hlog _ _ => exact hlog
          | present hset _ _ => exact absurd hset.exists hexists
        by_cases hne : evs = []
        · subst hne
          have hfrom : req.Sourced x fl := fun src hs => ⟨hex src hs, slog, hsrc src hs⟩
          obtain ⟨b, hd⟩ := h.decides wf hfrom now
          rw [hd.unchanged hok]
          exact ⟨line, before, hl, he⟩
        · obtain ⟨sline, -, hsl, -⟩ := ihsrc src hs
          refine ⟨sline ++ [⟨req, evs⟩], (sline.map Entry.evs).flatten,
            hl.fork req now (by simpa using hexists) hs hsl (hex src hs) hok hne, ?_⟩
          simp [record_flatten, hlog]

theorem Promise.not_begins {base : Nat} {ev : Event} (h : Promise fl base s ev) (hb : 0 < s.events) :
    ev.data.begins = false := by
  cases hbeg : ev.data.begins with
  | false => rfl
  | true => exact absurd (h.begins.1 hbeg) hb.ne'

theorem Payload.forked_begins {p : Payload} (h : p.begins = false) : p.isForked = false := by
  cases p <;> first | rfl | cases h

/-- What holds of the history so far and the state it led to, event by event. -/
theorem Path.moves {G : State → Event → Prop} {I : List (Request × Event) → State → Prop} {req : Request} {evs : List Event}
    {s' : State} (step : ∀ {l s ev s'}, I l s → G s ev → s.apply x.quote fl ev = .ok s' → I (l ++ [(req, ev)]) s')
    {l : List (Request × Event)} (hI : I l s) (hp : Path (State.apply x.quote fl) G s evs s') :
    I (l ++ evs.map fun ev => (req, ev)) s' := by
  induction hp generalizing l with
  | nil s => simpa using hI
  | @cons s s₁ s' ev evs guard ok _ ih =>
    have := ih (step hI guard ok)
    rw [List.append_assoc] at this
    exact this

theorem Request.cause_fork {req : Request} {src : State} (h : req.source = some src) : req.cause = .fork := by
  have hask : ∀ {a : Ask}, a.source = some src → a.cause = .fork := by
    intro a ha
    cases a with
    | command cmd => cases ha
    | fork => rfl
  cases req with
  | ask a => exact hask h
  | continueAsNew seg cmdID => cases h
  | abort a decided cmdID reason msg => exact hask h

/-- The first event of a fork holds its source's state. -/
theorem first_forked {base : Nat} {req : Request} {src : State} {ev : Event} (ha : s.Absent) (hsrc : req.source = some src)
    (hp : Promise fl base s ev) (hapt : ev.data.Apt req.cause fl s) (hd : Duly x fl req.source s ev) :
    ∃ d, ev.data = .forked d ∧ d.state = src.marshal := by
  have hbeg := hp.begins.2 ha.events
  have hfork := hd.fork
  rw [Request.cause_fork hsrc] at hapt
  cases hev : ev.data with
  | started d => rw [hev] at hapt; exact absurd rfl hapt
  | forked d =>
    rw [hev, hsrc] at hfork
    obtain ⟨src', hs, hst⟩ := hfork
    cases hs
    exact ⟨d, rfl, hst⟩
  | _ => rw [hev] at hbeg; cases hbeg

/-- One decision of a history and the state it was taken in. It continues the history `before`, which is its source's
when it is a fork. -/
inductive Turn (x : Ext) (fl : Flow) : List Entry → State → Request → List Event → State → Prop
  | own {s : State} {line : List Entry} {evs : List Event} (req : Request) (now : Time) (h : Lineage x fl s line)
      (hown : req.source = none) (hok : (req.perform x fl s now).result = .ok evs) :
      Turn x fl line s req evs (req.perform x fl s now).state
  | fork {s src : State} {line sline : List Entry} {evs : List Event} (req : Request) (now : Time)
      (h : Lineage x fl s line) (habs : s.exists = false) (hsrc : req.source = some src) (hs : Lineage x fl src sline)
      (hex : src.exists = true) (hok : (req.perform x fl s now).result = .ok evs) (hne : evs ≠ []) :
      Turn x fl sline s req evs (req.perform x fl s now).state

theorem State.apply_forked_open {s s' src : State} {quote : String → String} {fl : Flow} {ev : Event} {d : Event.Forked}
    (hd : ev.data = .forked d) (hstate : d.state = src.marshal) (happ : s.apply quote fl ev = .ok s') :
    s'.work.toOpen = src.work.toOpen := by
  rw [State.apply_work happ, hd]
  show (unmarshal d.state).work.toOpen = _
  rw [hstate]
  exact congrArg Work.toOpen (State.work_encoded src)

/-- A property of histories that every event keeps. -/
structure Lasting (x : Ext) (fl : Flow) (I : List (Request × Event) → State → Prop) : Prop where
  new : ∀ execID, I [] (State.new execID)
  alike : ∀ {l s s'}, I l s → s.Alike s' → I l s'
  step : ∀ {l s s' req ev base}, I l s → Promise fl base s ev → ev.data.Apt req.cause fl s → ev.data.isForked = false →
    s.apply x.quote fl ev = .ok s' → I (l ++ [(req, ev)]) s'
  fork : ∀ {l src req ev d} {s s' : State}, I l src → src.exists = true → s.Absent → req.source = some src → ev.data = .forked d →
    d.state = src.marshal → s.apply x.quote fl ev = .ok s' → I (l ++ [(req, ev)]) s'

/-- What is known of each event of a decision. -/
structure Said (x : Ext) (fl : Flow) (req : Request) (base : Nat) (s : State) (ev : Event) : Prop where
  promise : Promise fl base s ev
  apt : ev.data.Apt req.cause fl s
  duly : Duly x fl req.source s ev

variable {before : List Entry} {s' : State} {req : Request} {evs : List Event}

theorem Turn.said (ck : Checked fl) (h : Turn x fl before s req evs s') :
    ∃ base, Path (State.apply x.quote fl) (Said x fl req base) s evs s' := by
  have wf := ck.toWellFormed
  have all : ∀ {now : Time} {log : List (List Event)}, Reachable x fl s log → req.Sourced x fl →
      (∀ src, req.source = some src → src.work.Fits fl) → (req.perform x fl s now).result = .ok evs →
      ∃ base, Path (State.apply x.quote fl) (Said x fl req base) s evs (req.perform x fl s now).state := by
    intro now log hr hfrom hfits hok
    have hapt := (hr.apt ck hfrom hok).1
    have hduly := perform_duly wf (hr.fits wf) hfits hok
    by_cases hne : evs = []
    · subst hne
      rw [hapt.eq_of_nil]
      exact ⟨0, .nil _⟩
    · have hwrote := ((hr.tracked wf).wrote wf req (hfrom.ok wf) now hok hne).1
      exact ⟨_, ((hwrote.and hapt).and hduly).mono fun _ _ hg => ⟨hg.1.1, hg.1.2, hg.2⟩⟩
  cases h with
  | own req now h hown hok =>
    obtain ⟨log, hr⟩ := h.reachable
    exact all hr (fun src hs => by simp [hown] at hs) (fun src hs => by simp [hown] at hs) hok
  | fork req now h habs hsrc hs hex hok hne =>
    obtain ⟨log, hr⟩ := h.reachable
    obtain ⟨slog, hsr⟩ := hs.reachable
    refine all hr (fun src' hs' => ?_) (fun src' hs' => ?_) hok
    · cases hsrc.symm.trans hs'
      exact ⟨hex, slog, hsr⟩
    · cases hsrc.symm.trans hs'
      exact hsr.fits wf

theorem Lineage.absent (wf : WellFormed fl) (h : Lineage x fl s line) (habs : s.exists = false) : s.Absent := by
  obtain ⟨log, hr⟩ := h.reachable
  cases hr.tracked wf with
  | absent _ h _ => exact h
  | present hset _ _ => rw [hset.exists] at habs; cases habs

section
variable {I : List (Request × Event) → State → Prop} (hI : Lasting x fl I)
include hI

theorem Lasting.own {base : Nat} {l : List (Request × Event)} (h : I l s) (hown : req.source = none)
    (hp : Path (State.apply x.quote fl) (Said x fl req base) s evs s') : I (l ++ evs.map fun ev => (req, ev)) s' := by
  refine Path.moves (fun {l s ev s'} hl hg ha => hI.step hl hg.promise hg.apt ?_ ha) h hp
  cases hd : ev.data with
  | forked d =>
    have hf := hg.duly.fork
    rw [hd, hown] at hf
    obtain ⟨src, hs, -⟩ := hf
    cases hs
  | _ => rfl

theorem Lasting.forked {base : Nat} {l : List (Request × Event)} {src : State} (h : I l src) (hex : src.exists = true) (ha : s.Absent)
    (hsrc : req.source = some src) (hp : Path (State.apply x.quote fl) (Said x fl req base) s evs s') (hne : evs ≠ []) :
    I (l ++ evs.map fun ev => (req, ev)) s' := by
  cases hp with
  | nil => exact absurd rfl hne
  | @cons _ s₁ _ ev rest guard ok hrest =>
    obtain ⟨d, hd, hstate⟩ := first_forked ha hsrc guard.promise guard.apt guard.duly
    have hfirst : I (l ++ [(req, ev)]) s₁ := hI.fork h hex ha hsrc hd hstate ok
    have begun : ∀ {s s' : State} {ev : Event}, s.apply x.quote fl ev = .ok s' → 0 < s'.events := by
      intro s s' ev happ
      obtain ⟨-, s₂, -, rfl⟩ := State.apply_ok.1 happ
      exact Nat.succ_pos _
    -- a begun execution is not forked again
    have hrun := @Path.moves x fl s₁ _ (fun l s => I l s ∧ 0 < s.events) req _ s' (fun {l s ev s'} hl hg happ =>
      ⟨hI.step hl.1 hg.promise hg.apt (Payload.forked_begins (hg.promise.not_begins hl.2)) happ, begun happ⟩)
      _ ⟨hfirst, begun ok⟩ hrest
    rw [List.append_assoc] at hrun
    exact hrun.1

/-- **What every event keeps, every history has.** -/
theorem Lasting.lineage (ck : Checked fl) (h : Lineage x fl s line) : I (moves line) s := by
  induction h with
  | new execID => exact hI.new execID
  | reload _ ha ih => exact hI.alike ih ha
  | step req now h hown hok ih =>
    obtain ⟨base, hp⟩ := (Turn.own req now h hown hok).said ck
    rw [moves_snoc]
    exact hI.own ih hown hp
  | fork req now h habs hsrc hs hex hok hne ih ihs =>
    obtain ⟨base, hp⟩ := (Turn.fork req now h habs hsrc hs hex hok hne).said ck
    rw [moves_snoc]
    exact hI.forked ihs hex (h.absent ck.toWellFormed habs) hsrc hp hne

/-- The same at each event of a decision: `s₁` is the state it is emitted in. -/
theorem Lasting.turn (ck : Checked fl) (h : Turn x fl before s req evs s') {e₁ e₂ : List Event} {ev : Event}
    (he : evs = e₁ ++ ev :: e₂) (hf : ev.data.isForked = false) :
    ∃ base s₁ s₂, replay (State.apply x.quote fl) s e₁ = .ok s₁ ∧ I (moves before ++ e₁.map fun ev => (req, ev)) s₁ ∧
      Said x fl req base s₁ ev ∧ s₁.apply x.quote fl ev = .ok s₂ ∧
      I (moves before ++ e₁.map (fun ev => (req, ev)) ++ [(req, ev)]) s₂ ∧ replay (State.apply x.quote fl) s₂ e₂ = .ok s' := by
  obtain ⟨base, hp⟩ := h.said ck
  rw [he] at hp
  obtain ⟨s₁, hfst, hsnd⟩ := hp.split
  have hmid : I (moves before ++ e₁.map fun ev => (req, ev)) s₁ := by
    cases h with
    | own req now h hown hok => exact hI.own (hI.lineage ck h) hown hfst
    | fork req now h habs hsrc hs hex hok hne =>
      have ha := h.absent ck.toWellFormed habs
      refine hI.forked (hI.lineage ck hs) hex ha hsrc hfst fun hnil => ?_
      subst hnil
      cases hfst
      cases hsnd with
      | cons guard ok _ =>
        obtain ⟨d, hd, -⟩ := first_forked ha hsrc guard.promise guard.apt guard.duly
        rw [hd] at hf
        cases hf
  cases hsnd with
  | @cons _ s₂ _ _ _ guard ok hrest =>
    exact ⟨base, s₁, s₂, hfst.replay, hmid, guard, ok, hI.step hmid guard.promise guard.apt hf ok, hrest.replay⟩

end

end

/-! ## Commands one after another -/

theorem eq_take_cons_drop {α : Type} {l : List α} {i : Nat} {a : α} (h : l[i]? = some a) :
    l = l.take i ++ a :: l.drop (i + 1) := by
  obtain ⟨hi, rfl⟩ := List.getElem?_eq_some_iff.1 h
  rw [← List.drop_eq_getElem_cons hi, List.take_append_drop]

/-- The history of commands decided one after another at their times; nothing when one is refused. -/
def attend (x : Ext) (fl : Flow) : State → List Entry → List (Command × Time) → Option (State × List Entry)
  | s, line, [] => some (s, line)
  | s, line, (cmd, now) :: rest =>
    match (decide x fl s cmd now).result with
    | .ok evs => attend x fl (decide x fl s cmd now).state (line ++ [⟨.ask (.command cmd), evs⟩]) rest
    | .error _ => none

theorem Lineage.attend {x : Ext} {fl : Flow} {s : State} {line : List Entry} {r : State × List Entry}
    {cmds : List (Command × Time)} (h : Lineage x fl s line) (hs : Packtrail.attend x fl s line cmds = some r) :
    Lineage x fl r.1 r.2 := by
  induction cmds generalizing s line with
  | nil => cases hs; exact h
  | cons c cmds ih =>
    obtain ⟨cmd, now⟩ := c
    simp only [Packtrail.attend] at hs
    split at hs
    · rename_i evs hok
      exact ih (h.step (.ask (.command cmd)) now rfl hok) hs
    · cases hs

end Packtrail
