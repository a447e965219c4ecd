import Packtrail.Decisions
import Packtrail.Fitting

/-
# Channels and counters

`Ledger` is the part of a state that completions and updates write: the channels and the usage counters.
`State.apply_ledger` says once what each event does to it.

The first use of it here is that a channel always holds what its reducer expects. `Reduce` (`reduce.go:37-51`) checks the
value it is given and the value the channel holds, and the second check never fails: defaults are checked
by `Validate`, the reducers return values of their own kind (`reduce_holds`), and a fork or a continuation
carries the channels of a state that was reached before.
-/

namespace Packtrail

open Replay Emitter

structure Ledger where
  channels : SMap Json
  counters : SMap Rat

def State.ledger (s : State) : Ledger := ⟨s.channels, s.counters⟩

/-- `addUsage` on the counters alone. -/
def addAll (m u : SMap Rat) : SMap Rat := u.foldl (fun m k v => m.insert k (m.getD k 0 + v)) m

def Flow.defaults (fl : Flow) (m : SMap Json) : SMap Json :=
  fl.channels.foldl (fun m name c => if isNull (some c.default) then m else m.insert name c.default) m

/-- What one event makes of the ledger of `s`. -/
def Ledger.After (quote : String → String) (fl : Flow) (s : State) (l : Ledger) : Payload → Prop
  | .started _ => l = ⟨fl.defaults s.channels, s.counters⟩
  | .forked d => l = (unmarshal d.state).ledger
  | .continued d => l = (unmarshal d.state).ledger
  | .nodeDone d => State.reduceAll quote fl s.channels d.writes.toList = .ok l.channels ∧ l.counters = addAll s.counters d.usage
  | .update d => State.reduceAll quote fl s.channels d.writes.toList = .ok l.channels ∧ l.counters = s.counters
  | .nodeFail d =>
    l.channels = s.channels ∧ l.counters = if (s.tasks[d.key]?).isSome then addAll s.counters d.usage else s.counters
  | .interrupted d => l.channels = s.channels ∧ l.counters = addAll s.counters d.usage
  | .childDone d => l.channels = s.channels ∧ l.counters = addAll s.counters d.counters
  | _ => l = s.ledger

namespace State
section
variable {s s' : State}

theorem ledger_settleTask (s : State) (key : String) (o : BranchStatus) : (s.settleTask key o).ledger = s.ledger := by
  unfold settleTask
  split <;> rfl

theorem ledger_recordItem {owner : String} {m : MapRun} {i : Nat} {output : Raw}
    (h : s.recordItem owner m i output = .ok s') : s'.ledger = s.ledger := by
  unfold recordItem at h
  split at h <;> cases h
  rfl

theorem ledger_recordOutput {t : Task} {output : Raw} (h : s.recordOutput t output = .ok s') : s'.ledger = s.ledger := by
  unfold recordOutput at h
  split at h
  · split at h
    · exact ledger_recordItem h
    · cases h; rfl
  · cases h; rfl

variable {quote : String → String} {fl : Flow}

theorem ledger_applyNodeDone {d : Event.NodeDone}
    (h : s.applyNodeDone quote fl d = .ok s') : Ledger.After quote fl s s'.ledger (.nodeDone d) := by
  obtain ⟨t, channels, s₁, -, hch, hr, rfl⟩ := applyNodeDone_steps h
  have hl : (s₁.settleTask d.key .completed).ledger = ⟨channels, addAll s.counters d.usage⟩ :=
    (ledger_settleTask _ _ _).trans (ledger_recordOutput hr)
  rw [hl]
  exact ⟨hch, rfl⟩

theorem ledger_applyNodeFail (quote : String → String) (fl : Flow) (s : State) (d : Event.NodeFail) :
    Ledger.After quote fl s (s.applyNodeFail d).ledger (.nodeFail d) := by
  unfold applyNodeFail
  cases ht : s.tasks[d.key]? with
  | none => simp [Ledger.After, ht, ledger]
  | some t =>
    simp only [Ledger.After, ht, Option.isSome_some, if_true]
    split
    · exact ⟨rfl, rfl⟩
    · rw [ledger_settleTask]
      exact ⟨rfl, rfl⟩

theorem ledger_applyChildDone {d : Event.ChildDone}
    (h : s.applyChildDone d = .ok s') : Ledger.After quote fl s s'.ledger (.childDone d) := by
  unfold applyChildDone at h
  simp only at h
  split at h
  · cases h; exact ⟨rfl, rfl⟩
  · split at h
    · split at h
      · rw [ledger_recordItem h]
        exact ⟨rfl, rfl⟩
      · cases h; exact ⟨rfl, rfl⟩
    · cases h; exact ⟨rfl, rfl⟩

theorem applyData_ledger {ev : Event} (h : s.applyData quote fl ev = .ok s') :
    Ledger.After quote fl s s'.ledger ev.data := by
  unfold applyData at h
  cases hd : ev.data <;> simp only [hd] at h
  case nodeDone d => exact ledger_applyNodeDone h
  case nodeFail d => cases h; exact ledger_applyNodeFail quote fl s d
  case nodeCancel d => cases h; exact ledger_settleTask _ _ _
  case childDone d => exact ledger_applyChildDone h
  case join d => cases h; unfold applyJoin; cases s.fans[d.fanout]? <;> rfl
  case interrupted d => unfold applyInterrupted at h; split at h <;> cases h; exact ⟨rfl, rfl⟩
  case update d =>
    unfold applyUpdate at h
    split at h <;> cases h
    rename_i channels hch
    exact ⟨hch, rfl⟩
  case mapDone d => unfold applyMapDone at h; split at h <;> cases h; rfl
  case signalUse d => unfold applySignalUse at h; split at h <;> cases h; rfl
  all_goals cases h; rfl

/-- **What folding an event does to channels and counters.** -/
theorem apply_ledger {ev : Event} (h : s.apply quote fl ev = .ok s') :
    Ledger.After quote fl s s'.ledger ev.data := by
  obtain ⟨-, s₁, hd, rfl⟩ := apply_ok.1 h
  show Ledger.After quote fl s s₁.ledger ev.data
  exact applyData_ledger hd

theorem Alike.ledger (h : s.Alike s') : s.ledger = s'.ledger :=
  show s.core.ledger = s'.core.ledger from congrArg State.ledger h

end
end State

/-! ## What a channel holds -/

/-- What a channel with reducer `r` may hold. -/
def Reducer.holds : Reducer → Json → Bool
  | .append, v => v.isArr
  | .merge, v => isObject (some v)
  | .sum, v => v.isNum
  | _, _ => true

/-- Every channel is absent or holds what its reducer works on. -/
def ChannelsFit (fl : Flow) (channels : SMap Json) : Prop :=
  ∀ name v, channels[name]? = some v → (fl.reducerOf name).holds v = true

theorem reduce_holds {quote : String → String} {r : Reducer} {cur : Raw} {delta v : Json}
    (h : reduce quote r cur delta = .ok v) : r.holds v = true := by
  cases r with
  | append =>
    simp only [reduce, reduceAppend] at h
    split at h <;> cases h <;> rfl
  | merge =>
    simp only [reduce, reduceMerge, mergeInto] at h
    split at h
    all_goals first | cases h | (split at h <;> cases h; rfl)
  | sum =>
    simp only [reduce, reduceSum] at h
    split at h
    · cases h
    · split at h <;> cases h
      rfl
  | unset => rfl
  | replace => rfl
  | unknown s => rfl

section
variable {quote : String → String} {fl : Flow} {channels channels' : SMap Json}

theorem ChannelsFit.insert (h : ChannelsFit fl channels) {name : String} {v : Json} (hv : (fl.reducerOf name).holds v = true) :
    ChannelsFit fl (channels.insert name v) := by
  intro name' v' hget
  obtain ⟨rfl, rfl⟩ | ⟨-, hget⟩ := get_of_insert hget
  · exact hv
  · exact h _ _ hget

theorem ChannelsFit.reduceAll {ws : List (String × Json)} (h : ChannelsFit fl channels)
    (hr : State.reduceAll quote fl channels ws = .ok channels') : ChannelsFit fl channels' := by
  induction ws generalizing channels with
  | nil => cases hr; exact h
  | cons w ws ih =>
    obtain ⟨name, delta⟩ := w
    simp only [State.reduceAll] at hr
    split at hr
    · rename_i v hv
      exact ih (h.insert (reduce_holds hv)) hr
    · cases hr

/-- What `Validate` checks of a channel: its reducer is known and its default fits it. -/
theorem channel_of_validate {x : Ext} (hv : validate x fl = []) {name : String} {c : Channel} (hc : fl.channels[name]? = some c) :
    (∀ s, c.reducerOrDefault ≠ .unknown s) ∧ c.defaultFits = true := by
  have hlocal := local_of_validate hv
  simp only [localProblems, flowLevelProblems, List.append_eq_nil_iff, List.flatMap_eq_nil_iff] at hlocal
  have hch := hlocal.1.2.1.1.1.1.2 (name, c) (Std.ExtTreeMap.mem_toList_iff_getElem?_eq_some.2 hc)
  simp only [channelProblems, List.append_eq_nil_iff] at hch
  have hred := hch.2
  split at hred
  · cases hred
  · rename_i hknown
    exact ⟨hknown, by simpa using hred⟩

theorem Channel.default_holds {c : Channel} (h : c.defaultFits = true) (hnull : isNull (some c.default) = false) :
    c.reducerOrDefault.holds c.default = true := by
  unfold Channel.defaultFits at h
  unfold Reducer.holds
  split at h <;> simp_all

theorem ChannelsFit.defaults {x : Ext} (hv : validate x fl = []) (h : ChannelsFit fl channels) :
    ChannelsFit fl (fl.defaults channels) := by
  unfold Flow.defaults
  rw [Std.ExtTreeMap.foldl_eq_foldl_toList]
  have hall : ∀ kc ∈ fl.channels.toList, isNull (some kc.2.default) = false → (fl.reducerOf kc.1).holds kc.2.default = true := by
    intro kc hm hnull
    have hc := Std.ExtTreeMap.mem_toList_iff_getElem?_eq_some.1 hm
    simp only [Flow.reducerOf, hc]
    exact Channel.default_holds (channel_of_validate hv hc).2 hnull
  generalize fl.channels.toList = l at hall
  induction l generalizing channels with
  | nil => exact h
  | cons kc l ih =>
    rw [List.foldl_cons]
    refine ih ?_ fun kc hm => hall kc (List.mem_cons_of_mem _ hm)
    split
    · exact h
    · rename_i hnull
      exact h.insert (hall kc List.mem_cons_self (by simpa using hnull))

end

/-! ## Whole runs -/

section
variable {x : Ext} {fl : Flow} {s s' : State} {ev : Event} {evs : List Event} {now : Time} {log : List (List Event)}

theorem ChannelsFit.step {base : Nat} (hv : validate x fl = []) (h : ChannelsFit fl s.channels) (hp : Promise fl base s ev)
    (hfork : ev.data.ForkOf fun src => ChannelsFit fl src.channels) (ha : s.apply x.quote fl ev = .ok s') :
    ChannelsFit fl s'.channels := by
  have hl := State.apply_ledger ha
  have hoffer := hp.offer
  show ChannelsFit fl s'.ledger.channels
  cases hd : ev.data <;> rw [hd] at hl hfork hoffer
  case started d => rw [hl]; exact h.defaults hv
  case forked d =>
    obtain ⟨src, hsrc, hst⟩ := hfork
    rw [hl, hst]
    exact hsrc
  case continued d =>
    obtain ⟨seg, q, hst⟩ := hoffer
    rw [hl, hst]
    exact h
  case nodeDone d => exact h.reduceAll hl.1
  case update d => exact h.reduceAll hl.1
  case nodeFail d => rw [hl.1]; exact h
  case interrupted d => rw [hl.1]; exact h
  case childDone d => rw [hl.1]; exact h
  all_goals rw [hl]; exact h

theorem Reachable.channelsFit (hv : validate x fl = []) (h : Reachable x fl s log) : ChannelsFit fl s.channels := by
  refine h.invariant (wellFormed_of_validate hv) (I := fun s => ChannelsFit fl s.channels) (fun execID name v hget => ?_)
    (fun ha hi => ?_) fun hi hp _ hfork ha => hi.step hv hp hfork ha
  · rw [show (State.new execID).channels = ∅ from rfl, get_empty] at hget
    cases hget
  · show ChannelsFit fl (State.ledger _).channels
    rw [← ha.ledger]
    exact hi

/-- What `Reduce` says about the value a channel holds. -/
def currentComplaints : List String :=
  ["reducer: append: current value is not an array", "reducer: merge: current value is not an object",
   "reducer: sum: current value is not a number"]

/-- The values a channel with reducer `r` accepts. -/
def Reducer.takes : Reducer → Json → Bool
  | .merge, delta => isObject (some delta)
  | .sum, delta => (numberOf delta).isSome
  | _, _ => true

/-- The one error left once the channel holds what it should. -/
theorem reduce_fits {quote : String → String} {r : Reducer} {cur : Raw} (hr : ∀ s, r ≠ .unknown s)
    (hcur : ∀ v, cur = some v → r.holds v = true) (delta : Json) :
    (r.takes delta = true ∧ ∃ v, reduce quote r cur delta = .ok v) ∨
    (r.takes delta = false ∧ ∃ e, reduce quote r cur delta = .error e ∧ e ∉ currentComplaints) := by
  cases r with
  | unknown s => exact absurd rfl (hr s)
  | unset => exact .inl ⟨rfl, _, rfl⟩
  | replace => exact .inl ⟨rfl, _, rfl⟩
  | append =>
    refine .inl ⟨rfl, ?_⟩
    cases cur with
    | none => exact ⟨_, rfl⟩
    | some v =>
      have hv := hcur v rfl
      cases v <;> first | exact ⟨_, rfl⟩ | cases hv
  | merge =>
    have hmerge : ∃ m, reduce quote .merge cur delta = mergeInto m delta := by
      cases cur with
      | none => exact ⟨_, rfl⟩
      | some v =>
        have hv := hcur v rfl
        cases v <;> first | exact ⟨_, rfl⟩ | cases hv
    obtain ⟨m, hm⟩ := hmerge
    rw [hm]
    cases delta with
    | obj ms => exact .inl ⟨rfl, _, rfl⟩
    | _ => exact .inr ⟨rfl, _, rfl, by decide⟩
  | sum =>
    have hsum : ∃ a, numberOf cur.encoded = some a := by
      cases cur with
      | none => exact ⟨_, rfl⟩
      | some v =>
        have hv := hcur v rfl
        cases v <;> first | exact ⟨_, rfl⟩ | cases hv
    obtain ⟨a, ha⟩ := hsum
    simp only [reduce, reduceSum, ha, Reducer.takes]
    cases numberOf delta with
    | none => exact .inr ⟨rfl, _, rfl, by decide⟩
    | some b => exact .inl ⟨rfl, _, rfl⟩

theorem reducerOf_known (hv : validate x fl = []) (name s : String) : fl.reducerOf name ≠ .unknown s := by
  unfold Flow.reducerOf
  split
  · rename_i c hc
    exact (channel_of_validate hv hc).1 s
  · simp

/-! ## Refused writes -/

def Payload.keepsChannels : Payload → Bool
  | .started _ | .forked _ | .continued _ | .nodeDone _ | .update _ => false
  | _ => true

theorem apply_channels (hp : ev.data.keepsChannels = true) (ha : s.apply x.quote fl ev = .ok s') : s'.channels = s.channels := by
  have hl := State.apply_ledger ha
  show s'.ledger.channels = s.ledger.channels
  cases hd : ev.data <;> rw [hd] at hl hp
  case nodeFail d => exact hl.1
  case interrupted d => exact hl.1
  case childDone d => exact hl.1
  all_goals first | exact congrArg Ledger.channels hl | cases hp

theorem Path.channels {G : State → Event → Prop} (hG : ∀ {s ev}, G s ev → ev.data.keepsChannels = true)
    (hp : Path (State.apply x.quote fl) G s evs s') : s'.channels = s.channels :=
  hp.invariant (I := fun t => t.channels = s.channels) (fun _ _ _ hi hg ha => (apply_channels (hG hg) ha).trans hi) rfl

/-- The writes an ask carries are refused by the channels they are checked against: the execution's own, or
those of the source it forks. -/
def Ask.Refused (x : Ext) (fl : Flow) (s : State) : Ask → Prop
  | .command ⟨_, .complete p⟩ => ∃ e, checkWrites x fl s p.writes.toList = .error e
  | .command ⟨_, .update writes⟩ => ∃ e, checkWrites x fl s writes.toList = .error e
  | .fork src _ _ _ writes => ∃ e, checkWrites x fl src writes.toList = .error e
  | _ => False

def Request.Refused (x : Ext) (fl : Flow) (s : State) : Request → Prop
  | .ask a | .abort a _ _ _ _ => a.Refused x fl s
  | .continueAsNew _ _ => False

variable {c : Ctx} {e : String}

/-- A refused completion fails its task instead. -/
theorem complete_refused (wf : WellFormed c.fl) {p : Cmd.CompleteData}
    (hw : checkWrites c.x c.fl s p.writes.toList = .error e) :
    Behaves c (fun p => p.keepsChannels = true) (complete c p) s := by
  have hR : ∀ p : Payload, p.reacts = true → p.keepsChannels = true := by
    intro p hp
    cases p <;> first | rfl | cases hp
  refine .getSt fun hs => current_behaves (fun t hc ht => .nodeOf fun n hn => ?_) hs
  simp only
  split
  · exact taskFailed_behaves hR wf (fun _ => rfl) ht _ _ _ _
  · rename_i hcheck
    obtain ⟨u, hok, -⟩ := checkCompletion_none hcheck
    rw [hok] at hw
    cases hw

theorem update_refused {writes : SMap Json} (hw : checkWrites c.x c.fl s writes.toList = .error e) :
    Behaves c (fun p => p.keepsChannels = true) (update c writes) s := by
  refine .getSt fun _ => .ite (fun _ => .throw _) fun _ => .ite (fun _ => .pure _) fun _ => ?_
  rw [hw]
  exact .throw _

/-- A fork whose edit is refused is an error. -/
theorem forkProg_refused {src : State} {writes : SMap Json}
    (hw : checkWrites c.x c.fl src writes.toList = .error e) (source : String) (seq : Nat) :
    Runs c.apply (fun _ _ => True) (fun _ => True) (forkProg c src source seq writes) s fun _ _ => False := by
  refine Runs.getSt ?_
  have hemit : Runs c.apply (fun _ _ => True) (fun _ => True)
      (emit c (.forked { execID := s.execID, source, seq, state := src.marshal })) s fun _ s₁ => s₁.channels = src.channels := by
    refine Runs.emitAny trivial (fun s₁ ha => ?_) fun _ _ => trivial
    exact congrArg Ledger.channels (State.apply_ledger ha)
  refine hemit.bind fun _ s₁ hch => Runs.getSt ?_
  split
  · rename_i hempty
    have hnil : writes.toList = [] := by simpa using hempty
    rw [hnil] at hw
    cases hw
  · split
    · exact Runs.throw trivial
    · rw [checkWrites_congr hch, hw]
      exact Runs.throw trivial

theorem Ask.refused_keeps (wf : WellFormed fl) (hs : s.work.Fits fl) {a : Ask} (hr : a.Refused x fl s)
    (hok : (a.decide x fl s now).result = .ok evs) : (a.decide x fl s now).state.channels = s.channels := by
  have hruns : ∀ {cmdID : String} {m : DecM Unit}, Behaves ⟨x, fl, now, cmdID⟩ (fun p => p.keepsChannels = true) m s →
      (runDecision m s).result = .ok evs → (runDecision m s).state.channels = s.channels := fun hm hok =>
    Path.channels (fun hg => hg.kind) (Runs.decision (hm hs) hok).1
  cases a with
  | command cmd =>
    simp only [Ask.decide] at hok ⊢
    rcases decide_cases x fl s cmd now with h | h | ⟨e, h⟩
    · rw [h] at hok ⊢
      obtain ⟨id, data⟩ := cmd
      cases data with
      | complete p => exact hruns (complete_refused wf hr.choose_spec) hok
      | update writes => exact hruns (update_refused hr.choose_spec) hok
      | _ => exact hr.elim
    · rw [h]
    · rw [h] at hok
      cases hok
  | fork src source seq cmdID writes =>
    simp only [Ask.decide, decideFork] at hok ⊢
    split at hok
    · rename_i hex
      rw [if_pos hex]
    · exact (Runs.decision (forkProg_refused hr.choose_spec source seq) hok).2.elim

/-- Refused writes leave events behind only in an execution that exists. -/
theorem Ask.refused_exists {a : Ask} (hr : a.Refused x fl s) (hok : (a.decide x fl s now).result = .ok evs) :
    s.exists = true := by
  by_contra hno
  rw [Bool.not_eq_true] at hno
  cases a with
  | command cmd =>
    obtain ⟨id, data⟩ := cmd
    cases data <;> first | exact hr.elim | (simp [Ask.decide, Packtrail.decide, CmdData.isStart, hno] at hok)
  | fork src source seq cmdID writes =>
    simp only [Ask.decide, decideFork] at hok
    rw [hno] at hok
    exact (Runs.decision (forkProg_refused hr.choose_spec source seq) hok).2.elim

theorem abort_channels (hex : s.exists = true) (cmdID reason msg : String)
    (hok : (abort x fl s none cmdID reason msg now).result = .ok evs) :
    (abort x fl s none cmdID reason msg now).state.channels = s.channels := by
  have hruns : Runs (Ctx.apply ⟨x, fl, now, cmdID⟩) (fun _ ev => ev.data.keepsChannels = true) (fun _ => True)
      (abortProg ⟨x, fl, now, cmdID⟩ none reason msg) s fun _ _ => True := by
    refine Runs.getSt ?_
    rw [if_pos hex]
    split
    · exact Runs.pure trivial
    · exact Runs.getSt (Runs.getAux fun _ => Runs.emitAny rfl (fun _ _ => trivial) fun _ _ => trivial)
  exact Path.channels (fun hg => hg) (Runs.decision hruns hok).1

theorem Request.refused_keeps (wf : WellFormed fl) (hs : s.work.Fits fl) {req : Request} (hr : req.Refused x fl s)
    (hok : (req.perform x fl s now).result = .ok evs) : (req.perform x fl s now).state.channels = s.channels := by
  cases req with
  | ask a => exact Ask.refused_keeps wf hs hr hok
  | continueAsNew seg cmdID => exact hr.elim
  | abort a decided cmdID reason msg =>
    simp only [Request.perform] at hok ⊢
    cases hd : (a.decide x fl s decided).result with
    | error e => rfl
    | ok evs₀ =>
      rw [hd] at hok
      cases evs₀ with
      | nil => rfl
      | cons first rest =>
        have hex := Ask.refused_exists hr hd
        simp only [hex, if_true] at hok ⊢
        exact abort_channels hex cmdID reason msg hok

/-- **Channels always fit their reducer**, so `Reduce` never complains about what a channel holds, an append or a merge
channel judges a write by its value alone, and refused writes change nothing. -/
theorem channels_fit_reducers (hv : validate x fl = []) (h : Reachable x fl s log) :
    (∀ name v, s.channels[name]? = some v → (fl.reducerOf name).holds v = true) ∧
    (∀ name delta e, reduce x.quote (fl.reducerOf name) s.channels[name]? delta = .error e → e ∉ currentComplaints) ∧
    (∀ name delta, fl.reducerOf name = .append ∨ fl.reducerOf name = .merge →
      ((∃ v, reduce x.quote (fl.reducerOf name) s.channels[name]? delta = .ok v) ↔ (fl.reducerOf name).takes delta = true)) ∧
    ∀ (req : Request) now evs, req.Refused x fl s → (req.perform x fl s now).result = .ok evs →
      (req.perform x fl s now).state.channels = s.channels := by
  have hfit := h.channelsFit hv
  have hred := fun name delta => @reduce_fits x.quote _ _ (reducerOf_known hv name) (hfit name) delta
  have wf := wellFormed_of_validate hv
  refine ⟨hfit, fun name delta e he => ?_, fun name delta _ => ?_, fun req now evs hr hok =>
    Request.refused_keeps wf (h.fits wf) hr hok⟩
  · rcases hred name delta with ⟨-, v, hv⟩ | ⟨-, e', he', hnot⟩
    · rw [hv] at he; cases he
    · rw [he'] at he
      cases he
      exact hnot
  · rcases hred name delta with ⟨ht, v, hv⟩ | ⟨ht, e', he', -⟩
    · exact ⟨fun _ => ht, fun _ => ⟨v, hv⟩⟩
    · constructor
      · rintro ⟨v, hv⟩
        rw [he'] at hv
        cases hv
      · intro htrue
        rw [ht] at htrue
        cases htrue

end

def notedReview : Flow :=
  { oneTask with
    channels := ((∅ : SMap Channel).insert "notes" { reducer := .append, default := .arr [] }).insert "tags" { reducer := .merge } }

theorem notedReview_valid : validate plainExt notedReview = [] := by decide +kernel

def startedNotes : Outcome := decide plainExt notedReview (State.new "r1") startReview 1

theorem startedNotes_reachable : Reachable plainExt notedReview startedNotes.state (record [] startedNotes.events) :=
  (Reachable.new "r1").command startReview 1 (by decide +kernel)

/-- A completion that writes a number into the merge channel. -/
def numberedTags : Cmd.CompleteData :=
  { key := "draft", generation := 1, attempt := 1, writes := (∅ : SMap Json).insert "tags" (.num 1) }

theorem numberedTags_refused :
    ((startedNotes.state.channels["notes"]?).map Json.isArr) = some true ∧
    (decide plainExt notedReview startedNotes.state ⟨"done-1", .complete numberedTags⟩ 2).events.length = 2 ∧
    (decide plainExt notedReview startedNotes.state ⟨"done-1", .complete numberedTags⟩ 2).state.channels =
      startedNotes.state.channels := by
  refine ⟨by decide +kernel, by decide +kernel, ?_⟩
  refine (channels_fit_reducers notedReview_valid startedNotes_reachable).2.2.2
    (.ask (.command ⟨"done-1", .complete numberedTags⟩)) 2 _ ?_ (Outcome.result_events (by decide +kernel))
  have hno : (checkWrites plainExt notedReview startedNotes.state numberedTags.writes.toList).isOk = false := by decide +kernel
  show ∃ e, checkWrites plainExt notedReview startedNotes.state numberedTags.writes.toList = .error e
  cases hw : checkWrites plainExt notedReview startedNotes.state numberedTags.writes.toList with
  | error e => exact ⟨e, rfl⟩
  | ok u => rw [hw] at hno; cases hno

end Packtrail
