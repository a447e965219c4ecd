import Packtrail.Decisions
import Packtrail.Fitting

/-
# Signals

A signal is accepted into the buffer (`signal`, `decide.go:1006-1026`) and an await node takes the oldest one of its name
(`consume`, `decide.go:990-1004`). The event names what was taken by its id alone, and `applySignalUse`
(`state.go:797-815`) looks for that id among all buffered signals, whatever their names. The two agree as long as
the buffered ids are distinct, which nothing but the deduplication memory sees to: it forgets an id after a day or
after ten thousand newer ones, while the signal may still be buffered.

`accepted` and `consumed` read the log; **`signals_in_order`** says that, when no signal is accepted under the id of one
that is still buffered, each name is a queue.
-/

namespace Packtrail

open Replay

namespace State

/-- The payloads buffered for `name`, oldest first. -/
def bufferedOf (s : State) (name : String) : List Raw :=
  (s.buffered.filter fun b => b.name == name).map Buffered.payload

end State

/-- The payloads an event makes available to awaits of `name`: a fork starts with what its source had buffered. -/
def Payload.accepts (name : String) : Payload → List Raw
  | .signal d => if d.name = name then [d.payload] else []
  | .forked d => (unmarshal d.state).bufferedOf name
  | _ => []

/-- The payload an await of `name` is given by an event folded onto `s`. -/
def consumes (name : String) (s : State) (ev : Event) : List Raw :=
  match ev.data with
  | .signalUse d =>
    if d.name = name then ((s.buffered.find? fun b => b.id == d.id).map Buffered.payload).toList else []
  | _ => []

def accepted (name : String) (evs : List Event) : List Raw := evs.flatMap fun ev => ev.data.accepts name

def consumed (x : Ext) (fl : Flow) (name : String) (evs : List Event) : List Raw :=
  Replay.collect (State.apply x.quote fl) (consumes name) (State.new "") evs

/-- Every name is a queue, and no open await leaves a signal of its name lying. -/
def SignalsInOrder (x : Ext) (fl : Flow) (s : State) (log : List (List Event)) : Prop :=
  (∀ name, accepted name log.flatten = consumed x fl name log.flatten ++ s.bufferedOf name) ∧
  ∀ (node : String) (a : AwaitState), s.awaits[node]? = some a → s.bufferedOf a.signal = []

/-- The id of a signal that is accepted is not the id of one still buffered; a fork brings distinct ones. -/
def SignalFresh (s : State) (ev : Event) : Prop :=
  match ev.data with
  | .signal d => ∀ b ∈ s.buffered, b.id ≠ d.id
  | .forked d => ((unmarshal d.state).buffered.map Buffered.id).Nodup
  | _ => True

instance (s : State) (ev : Event) : Decidable (SignalFresh s ev) := by
  obtain ⟨_, _, _, data, _, _, _⟩ := ev
  delta SignalFresh
  cases data <;> dsimp only <;> infer_instance

/-! ## The buffer -/

/-- Taking the oldest signal of a name by its id, among distinct ids. -/
theorem take_oldest {l : List Buffered} {b : Buffered} {name : String} (hids : (l.map Buffered.id).Nodup)
    (hfind : l.find? (fun c => c.name == name) = some b) :
    l.find? (fun c => c.id == b.id) = some b ∧
    ∀ name', l.filter (fun c => c.name == name') =
      (if name = name' then [b] else []) ++ (l.eraseP fun c => c.id == b.id).filter fun c => c.name == name' := by
  induction l with
  | nil => cases hfind
  | cons c l ih =>
    rw [List.map_cons, List.nodup_cons] at hids
    by_cases hc : c.name = name
    · have hb : c = b := by simpa [List.find?_cons, hc] using hfind
      subst hb
      refine ⟨by simp, fun name' => ?_⟩
      by_cases hn : c.name = name' <;> simp [hn, ← hc]
    · have hfind' : l.find? (fun c => c.name == name) = some b := by simpa [List.find?_cons, hc] using hfind
      have hne : c.id ≠ b.id := fun he => hids.1 (he ▸ List.mem_map_of_mem (List.mem_of_find?_eq_some hfind'))
      obtain ⟨hid, hfilter⟩ := ih hids.2 hfind'
      refine ⟨by simpa [List.find?_cons, hne] using hid, fun name' => ?_⟩
      have hrest := hfilter name'
      have hbeq : (c.id == b.id) = false := by simpa using hne
      rw [List.eraseP_cons, hbeq, cond_false, List.filter_cons, List.filter_cons]
      by_cases hn : c.name = name'
      · have hnn : name ≠ name' := fun he => hc (hn.trans he.symm)
        simp only [hn, beq_self_eq_true, if_true, hnn, if_false, List.nil_append] at hrest ⊢
        rw [hrest]
      · have hnb : (c.name == name') = false := by simpa using hn
        simp only [hnb, Bool.false_eq_true, if_false]
        exact hrest

/-! ## One event, and a whole log -/

/-- What is known after the events `l` led to `s`. -/
structure Mailbox (x : Ext) (fl : Flow) (l : List Event) (s : State) : Prop where
  folded : replay (State.apply x.quote fl) (State.new "") l = .ok s
  begun : s.events = 0 → l = []
  ids : (s.buffered.map Buffered.id).Nodup
  queue : ∀ name, accepted name l = consumed x fl name l ++ s.bufferedOf name

section
variable {x : Ext} {fl : Flow} {base : Nat} {l : List Event} {s s' : State} {ev : Event} {log : List (List Event)}

theorem accepted_snoc (name : String) (l : List Event) (ev : Event) :
    accepted name (l ++ [ev]) = accepted name l ++ ev.data.accepts name := by
  simp [accepted]

theorem consumed_snoc (name : String) (hl : replay (State.apply x.quote fl) (State.new "") l = .ok s) :
    consumed x fl name (l ++ [ev]) = consumed x fl name l ++ consumes name s ev := by
  unfold consumed
  rw [collect_append hl]
  congr 1
  simp only [Replay.collect]
  split <;> simp

/-- An event that leaves the buffer alone. -/
theorem Mailbox.idle (h : Mailbox x fl l s) (ha : s.apply x.quote fl ev = .ok s') (hevents : s'.events ≠ 0)
    (hbuf : s'.buffered = s.buffered) (hacc : ∀ name, ev.data.accepts name = []) (hcon : ∀ name, consumes name s ev = []) :
    Mailbox x fl (l ++ [ev]) s' where
  folded := replay_append_ok h.folded (by simp [replay, ha])
  begun := fun he => absurd he hevents
  ids := hbuf ▸ h.ids
  queue := fun name => by
    rw [accepted_snoc, consumed_snoc name h.folded, hacc, hcon, List.append_nil, List.append_nil, h.queue name]
    simp only [State.bufferedOf, hbuf]

theorem Mailbox.step (h : Mailbox x fl l s) (hp : Promise fl base s ev) (hdue : ev.data.Due x fl s) (hfresh : SignalFresh s ev)
    (ha : s.apply x.quote fl ev = .ok s') : Mailbox x fl (l ++ [ev]) s' := by
  have hevents : s'.events ≠ 0 := by
    obtain ⟨-, s₁, -, rfl⟩ := State.apply_ok.1 ha
    exact Nat.succ_ne_zero _
  have hbuf : s'.buffered = _ :=
    (congrArg Work.buffered (State.apply_work ha)).trans (congrArg Prod.fst (s.work.books_step ev.data))
  have hfold : replay (State.apply x.quote fl) (State.new "") (l ++ [ev]) = .ok s' :=
    replay_append_ok h.folded (by simp [replay, ha])
  cases hd : ev.data with
  | signal d =>
    rw [hd] at hbuf
    rw [SignalFresh, hd] at hfresh
    have hbuf : s'.buffered = s.buffered ++ [⟨d.name, d.id, d.payload⟩] := hbuf
    refine ⟨hfold, fun he => absurd he hevents, ?_, fun name => ?_⟩
    · rw [hbuf, List.map_append, List.nodup_append]
      refine ⟨h.ids, by simp, fun a ham b hbm => ?_⟩
      obtain ⟨c, hc, rfl⟩ := List.mem_map.1 ham
      have hb : b = d.id := by simpa using hbm
      rw [hb]
      exact hfresh c hc
    · rw [accepted_snoc, consumed_snoc name h.folded, h.queue name]
      simp only [State.bufferedOf, hbuf, consumes, hd, Payload.accepts, List.append_nil, List.filter_append, List.map_append,
        List.append_assoc]
      by_cases hn : d.name = name <;> simp [hn]
  | signalUse d =>
    rw [hd] at hbuf hdue
    obtain ⟨b, nd, hfind, hid, -⟩ := hdue
    have hbuf : s'.buffered = s.buffered.eraseP fun c => c.id == d.id := hbuf
    have hname : b.name = d.name := by simpa using List.find?_some hfind
    rw [hid] at hbuf
    obtain ⟨hbyid, hfilter⟩ := take_oldest h.ids hfind
    refine ⟨hfold, fun he => absurd he hevents, ?_, fun name => ?_⟩
    · rw [hbuf]
      exact h.ids.sublist (List.Sublist.map _ List.eraseP_sublist)
    · rw [accepted_snoc, consumed_snoc name h.folded, h.queue name]
      simp only [State.bufferedOf, hbuf, consumes, hd, Payload.accepts, List.append_nil, List.append_assoc, hfilter name, hid, hbyid]
      by_cases hn : d.name = name <;> simp [hn]
  | forked d =>
    rw [hd] at hbuf
    rw [SignalFresh, hd] at hfresh
    have hbuf : s'.buffered = (unmarshal d.state).buffered := hbuf
    -- a fork is the first event
    have hnil : l = [] := h.begun (hp.begins.1 (by rw [hd]; rfl))
    subst hnil
    refine ⟨hfold, fun he => absurd he hevents, hbuf ▸ hfresh, fun name => ?_⟩
    rw [accepted_snoc, consumed_snoc name h.folded]
    simp [accepted, consumed, Replay.collect, consumes, hd, Payload.accepts, State.bufferedOf, hbuf]
  | continued d =>
    rw [hd] at hbuf
    have hoffer := hp.offer
    rw [hd] at hoffer
    obtain ⟨seg, q, hst⟩ := hoffer
    have hbuf : s'.buffered = (unmarshal d.state).buffered := hbuf
    refine h.idle ha hevents (hbuf.trans ?_) (fun _ => by rw [hd]; rfl) fun _ => by simp [consumes, hd]
    rw [hst]
    exact (congrArg Work.buffered (State.work_encoded _)).trans (congrArg Work.buffered (State.work_encoded s))
  | _ =>
    rw [hd] at hbuf
    exact h.idle ha hevents hbuf (fun _ => by rw [hd]; rfl) fun _ => by simp [consumes, hd]

theorem Reachable.mailbox (wf : WellFormed fl) (h : Reachable x fl s log)
    (hfresh : Throughout (State.apply x.quote fl) SignalFresh (State.new "") log.flatten) :
    ∃ s₁, Mailbox x fl log.flatten s₁ ∧ s₁.buffered = s.buffered := by
  obtain ⟨s₁, hp, ha⟩ := h.written wf
  refine ⟨s₁, ?_, congrArg Work.buffered ha.work⟩
  have hnew : Mailbox x fl [] (State.new "") := ⟨rfl, fun _ => rfl, List.nodup_nil, fun _ => rfl⟩
  have hrun := (hp.throughout hfresh).logInvariant (I := Mailbox x fl) (fun _ _ _ _ h hg ha => h.step hg.1.1 hg.1.2.due hg.2 ha) hnew
  simpa using hrun

/-- Between decisions no await leaves a signal of its name lying, whatever the ids. -/
theorem Reachable.awaits_quiet (wf : WellFormed fl) (h : Reachable x fl s log) {node : String} {a : AwaitState}
    (ha : s.awaits[node]? = some a) : s.bufferedOf a.signal = [] := by
  have hnone : ∀ {m : SMap AwaitState}, m = ∅ → m[node]? ≠ some a := fun he hget => by
    rw [he, get_empty] at hget
    cases hget
  rcases (h.tracked wf).idle_or_rested with hidle | ⟨-, hrest⟩
  · exact absurd ha (hnone hidle.awaits)
  · cases hrest.progress with
    | await h hquiet =>
      have hone : s.awaits = single _ _ := h.awaits
      rw [hone, single] at ha
      rcases get_of_insert ha with ⟨-, rfl⟩ | ⟨-, hget⟩
      · simp only [State.bufferedOf, List.map_eq_nil_iff, List.filter_eq_nil_iff]
        intro b hb
        simpa using hquiet b hb
      · rw [get_empty] at hget
        cases hget
    | task h => exact absurd ha (hnone h.rest.awaits)
    | child h => exact absurd ha (hnone h.rest.awaits)
    | fan h _ => exact absurd ha (hnone h.rest.awaits)
    | map h _ => exact absurd ha (hnone h.rest.awaits)

/-- **Each name is a queue**, in every run that accepts no signal under the id of one still buffered. -/
theorem signals_in_order (hv : validate x fl = []) (h : Reachable x fl s log)
    (hfresh : Throughout (State.apply x.quote fl) SignalFresh (State.new "") log.flatten) : SignalsInOrder x fl s log := by
  have wf := wellFormed_of_validate hv
  obtain ⟨s₁, hm, hbuf⟩ := h.mailbox wf hfresh
  refine ⟨fun name => ?_, fun node a ha => h.awaits_quiet wf ha⟩
  rw [hm.queue name]
  simp only [State.bufferedOf, hbuf]

end

/-! ### Flows with an await -/

/-- A task, and then an await for `go`. -/
def gatedReview : Flow :=
  { oneTask with nodes :=
      [{ id := "draft", type := .task, kind := "write", next := "gate" }, { id := "gate", type := .await, signal := "go", timeout := 60 }] }

theorem gatedReview_valid : validate plainExt gatedReview = [] := by decide +kernel

def early : State × List (List Event) :=
  (serve plainExt gatedReview (State.new "r1") []
    [(startReview, 1), (⟨"s1", .signal { name := "go", payload := some (.bool true) }⟩, 2),
     (⟨"done-1", .complete { key := "draft", generation := 1, attempt := 1 }⟩, 3)]).get (by decide +kernel)

/-- A signal that comes before its await. -/
theorem early_in_order : (consumed plainExt gatedReview "go" early.2.flatten).length = 1 ∧
    SignalsInOrder plainExt gatedReview early.1 early.2 :=
  ⟨by decide +kernel, signals_in_order gatedReview_valid ((Reachable.new "r1").serve (Option.some_get _).symm) (by decide +kernel)⟩

def hour : Time := 3600 * 1000000000

/-- Two signals of another name, a day apart, and then `go` under the id of the first. -/
def reusedID : List (Command × Time) :=
  [(startReview, 1), (⟨"s1", .signal { name := "other", payload := some (.obj []) }⟩, 2),
   (⟨"s2", .signal { name := "other" }⟩, 2 + 25 * hour), (⟨"s1", .signal { name := "go", payload := some (.bool true) }⟩, 3 + 25 * hour),
   (⟨"done-1", .complete { key := "draft", generation := 1, attempt := 1 }⟩, 4 + 25 * hour)]

def reused : State × List (List Event) :=
  (serve plainExt gatedReview (State.new "r1") [] reusedID).get (by decide +kernel)

theorem reused_reachable : Reachable plainExt gatedReview reused.1 reused.2 :=
  (Reachable.new "r1").serve (Option.some_get _).symm

/-- **The await of `go` is given the payload of the other signal.** -/
theorem reused_id_mixes_signals : validate plainExt gatedReview = [] ∧ Reachable plainExt gatedReview reused.1 reused.2 ∧
    ¬ SignalsInOrder plainExt gatedReview reused.1 reused.2 := by
  refine ⟨gatedReview_valid, reused_reachable, fun h => ?_⟩
  have hgo := congrArg (List.map isObject) (h.1 "go")
  have hne : ¬ (accepted "go" reused.2.flatten).map isObject =
      (consumed plainExt gatedReview "go" reused.2.flatten ++ reused.1.bufferedOf "go").map isObject := by decide +kernel
  exact hne hgo

end Packtrail
