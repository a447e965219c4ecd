import Packtrail.Guard
import Packtrail.Loader

/-
# Folding and encoding

A state that went through JSON folds on as the state itself: **`apply_encoded`**. Only `results`,
`signals` and the outputs of open maps change in the encoding, an absent message becoming `null`, and
`Apply` never looks at the difference. Nor does it look at `LastSeq`, which is set when a decision is
stored (`applyData_dress`): two states are `Alike` when only these details tell them apart, and they stay so
along any events.
-/

namespace Packtrail

def encodeAll (m : SMap Raw) : SMap Raw := m.map fun _ r => some r.encoded

def encodeMaps (m : SMap MapRun) : SMap MapRun := m.map fun _ r => r.encoded

/-- The encoding of the results, or the results themselves. -/
def recode (keep : Bool) (m : SMap Raw) : SMap Raw := if keep then m else encodeAll m

section
variable (m : SMap Raw) (r : SMap MapRun) (k : String)

@[simp] theorem encodeAll_encodeAll : encodeAll (encodeAll m) = encodeAll m := by
  apply Std.ExtTreeMap.ext_getElem?
  intro a
  simp only [encodeAll, Std.ExtTreeMap.getElem?_map]
  cases m[a]? <;> rfl

@[simp] theorem encodeAll_insert (v : Raw) : encodeAll (m.insert k v) = (encodeAll m).insert k (some v.encoded) := by
  apply Std.ExtTreeMap.ext_getElem?
  intro a
  simp only [encodeAll, Std.ExtTreeMap.getElem?_map, get_insert]
  split <;> rfl

@[simp] theorem recode_recode (keep : Bool) : recode keep (recode keep m) = recode keep m := by
  cases keep <;> simp [recode]

@[simp] theorem recode_insert (keep : Bool) (v : Raw) :
    recode keep (m.insert k v) = (recode keep m).insert k (if keep then v else some v.encoded) := by
  cases keep <;> simp [recode]

theorem MapRun.encoded_encoded (m : MapRun) : m.encoded.encoded = m.encoded := by
  simp [MapRun.encoded, Raw.encoded]

@[simp] theorem encodeMaps_encodeMaps : encodeMaps (encodeMaps r) = encodeMaps r := by
  apply Std.ExtTreeMap.ext_getElem?
  intro a
  simp only [encodeMaps, Std.ExtTreeMap.getElem?_map]
  cases r[a]? with
  | none => rfl
  | some m => simp [MapRun.encoded_encoded]

@[simp] theorem encodeMaps_insert (v : MapRun) : encodeMaps (r.insert k v) = (encodeMaps r).insert k v.encoded := by
  apply Std.ExtTreeMap.ext_getElem?
  intro a
  simp only [encodeMaps, Std.ExtTreeMap.getElem?_map, get_insert]
  split <;> rfl

@[simp] theorem encodeMaps_erase : encodeMaps (r.erase k) = (encodeMaps r).erase k := by
  apply Std.ExtTreeMap.ext_getElem?
  intro a
  simp only [encodeMaps, Std.ExtTreeMap.getElem?_map, get_erase]
  split <;> rfl

@[simp] theorem encodeMaps_empty : encodeMaps ∅ = ∅ := by
  apply Std.ExtTreeMap.ext_getElem?
  intro a
  simp [encodeMaps]

@[simp] theorem get_encodeMaps : (encodeMaps r)[k]? = (r[k]?).map MapRun.encoded := by
  simp [encodeMaps, Std.ExtTreeMap.getElem?_map]

theorem encodeMaps_isEmpty : (encodeMaps r).isEmpty = r.isEmpty := by
  rw [Bool.eq_iff_iff, Std.ExtTreeMap.isEmpty_iff, Std.ExtTreeMap.isEmpty_iff, Std.ExtTreeMap.eq_empty_iff_size_eq_zero,
    Std.ExtTreeMap.eq_empty_iff_size_eq_zero, encodeMaps, Std.ExtTreeMap.size_map]

end

namespace State

/-- `s` as far as its encoding tells, with the results as they are when `keep` says so. -/
def trim (keep : Bool) (s : State) : State :=
  { s with results := recode keep s.results, signals := encodeAll s.signals, maps := encodeMaps s.maps }

theorem trim_false (s : State) : s.trim false = s.encoded := rfl

section
variable {keep : Bool}

@[simp] theorem trim_trim (s : State) : (s.trim keep).trim keep = s.trim keep := by
  simp only [trim, recode_recode, encodeAll_encodeAll, recode_recode, encodeMaps_encodeMaps]

theorem trim_finish (s : State) (ev : Event) : (s.finish ev).trim keep = ((s.trim keep).finish ev).trim keep := by
  simp only [trim, finish, recomputeStatus, encodeMaps_isEmpty, encodeAll_encodeAll, recode_recode, encodeMaps_encodeMaps]
  rfl

theorem trim_settleTask (s : State) (k : String) (o : BranchStatus) :
    (s.settleTask k o).trim keep = ((s.trim keep).settleTask k o).trim keep := by
  simp only [settleTask, trim]
  split <;> simp

theorem trim_raiseNext (keep : Bool) (s : State) (owner node : String) (i : Nat) :
    encodeMaps (s.raiseNext owner node i) = encodeMaps ((s.trim keep).raiseNext owner node i) := by
  simp only [raiseNext, trim, get_encodeMaps]
  cases s.maps[owner]? with
  | none => simp
  | some m =>
    simp only [Option.map_some]
    split
    · simp [MapRun.encoded, Raw.encoded, Function.comp_def]
    · simp

theorem trim_recordItem (s : State) (owner : String) (m : MapRun) (i : Nat) (out : Raw) :
    (s.recordItem owner m i out).map (trim keep) = ((s.trim keep).recordItem owner m.encoded i out).map (trim keep) := by
  have hlen : m.encoded.outputs.length = m.outputs.length := by simp [MapRun.encoded]
  unfold recordItem
  rw [hlen]
  split
  · simp only [Except.map, trim, encodeMaps_insert, encodeMaps_encodeMaps, encodeAll_encodeAll, recode_recode]
    simp [MapRun.encoded, Raw.encoded, List.map_set, Function.comp_def]
  · rfl

theorem trim_recordOutput (s : State) (t : Task) (out : Raw) :
    (s.recordOutput t out).map (trim keep) = ((s.trim keep).recordOutput t out).map (trim keep) := by
  have hresult : (s.recordResult t.node out).trim keep = ((s.trim keep).recordResult t.node out).trim keep := by
    simp [recordResult, trim]
  unfold recordOutput
  rw [show (s.trim keep).maps[t.owner]? = (s.maps[t.owner]?).map MapRun.encoded from get_encodeMaps _ _]
  cases s.maps[t.owner]? with
  | none => exact congrArg Except.ok hresult
  | some m =>
    simp only [Option.map_some]
    split
    · exact trim_recordItem s _ _ _ _
    · exact congrArg Except.ok hresult

/-- A change that does not look at the difference, after results with the same encoding. -/
theorem map_trim_congr {f : State → State} (hf : ∀ s, (f s).trim keep = (f (s.trim keep)).trim keep) {a b : Except Err State}
    (h : a.map (trim keep) = b.map (trim keep)) : (a.map f).map (trim keep) = (b.map f).map (trim keep) := by
  cases a with
  | error e => cases b with
    | error e' => exact h
    | ok t => cases h
  | ok t => cases b with
    | error e' => cases h
    | ok t' =>
      have h : t.trim keep = t'.trim keep := Except.ok.inj h
      show Except.ok ((f t).trim keep) = Except.ok ((f t').trim keep)
      rw [hf t, hf t', h]

theorem trim_applyNodeDone (s : State) (quote : String → String) (fl : Flow) (d : Event.NodeDone) :
    (s.applyNodeDone quote fl d).map (trim keep) = ((s.trim keep).applyNodeDone quote fl d).map (trim keep) := by
  unfold applyNodeDone
  simp only [show (s.trim keep).tasks = s.tasks from rfl, show (s.trim keep).channels = s.channels from rfl]
  cases s.tasks[d.key]? with
  | none => rfl
  | some t =>
    simp only
    cases reduceAll quote fl s.channels d.writes.toList with
    | error e => rfl
    | ok channels =>
      exact map_trim_congr (fun s => trim_settleTask s d.key _)
        (trim_recordOutput (({ s with channels } : State).addUsage d.usage) t d.output)

theorem trim_applyNodeFail (s : State) (d : Event.NodeFail) :
    (s.applyNodeFail d).trim keep = ((s.trim keep).applyNodeFail d).trim keep := by
  unfold applyNodeFail
  rw [show (s.trim keep).tasks = s.tasks from rfl]
  cases s.tasks[d.key]? with
  | none => simp
  | some t =>
    simp only
    split
    · simp [trim, addUsage]
    · rw [trim_settleTask]
      congr 2
      simp only [addUsage, trim, get_encodeMaps]
      cases s.maps[t.owner]? <;> rfl

theorem trim_applyJoin (s : State) (d : Event.Join) : (s.applyJoin d).trim keep = ((s.trim keep).applyJoin d).trim keep := by
  unfold applyJoin
  rw [show (s.trim keep).fans = s.fans from rfl]
  cases s.fans[d.fanout]? with
  | none => simp [trim]
  | some f => simp [trim, ownedNodes, dropChildren]

theorem trim_applyChildDone (s : State) (d : Event.ChildDone) :
    (s.applyChildDone d).map (trim keep) = ((s.trim keep).applyChildDone d).map (trim keep) := by
  have hresult : ∀ (s : State) (ok : Bool), (s.childResult d ok).trim keep = ((s.trim keep).childResult d ok).trim keep := by
    intro s ok
    simp [childResult, trim]
  unfold applyChildDone
  obtain ⟨s₁, hs₁⟩ : ∃ s₁, s₁ = ({ s with children := s.children.erase d.instanceKey } : State).addUsage d.counters :=
    ⟨_, rfl⟩
  have henc : ({ (s.trim keep) with children := (s.trim keep).children.erase d.instanceKey } : State).addUsage d.counters =
      (s₁.trim keep) := by rw [hs₁]; rfl
  simp only [henc, ← hs₁]
  rw [show (s.trim keep).children[d.instanceKey]? = s.children[d.instanceKey]? from rfl]
  cases s.children[d.instanceKey]? with
  | none => exact congrArg Except.ok (hresult s₁ _)
  | some c =>
    simp only
    rw [show (s₁.trim keep).maps[c.owner]? = (s₁.maps[c.owner]?).map MapRun.encoded from get_encodeMaps _ _]
    cases hm : (if c.owner = d.node then s₁.maps[c.owner]? else none) with
    | none =>
      have hm' : (if c.owner = d.node then (s₁.maps[c.owner]?).map MapRun.encoded else none) = none := by
        split at hm
        · rename_i ho; rw [if_pos ho, hm]; rfl
        · rename_i ho; rw [if_neg ho]
      rw [hm']
      refine congrArg Except.ok ((hresult _ _).trans ?_)
      rfl
    | some m =>
      have hm' : (if c.owner = d.node then (s₁.maps[c.owner]?).map MapRun.encoded else none) = some m.encoded := by
        split at hm
        · rename_i ho; rw [if_pos ho, hm]; rfl
        · cases hm
      rw [hm']
      simp only
      split
      · exact trim_recordItem s₁ _ _ _ _
      · refine congrArg Except.ok ?_
        simp [trim]

theorem trim_applyData (s : State) (quote : String → String) (fl : Flow) (ev : Event) :
    (s.applyData quote fl ev).map (trim keep) = ((s.trim keep).applyData quote fl ev).map (trim keep) := by
  unfold applyData
  cases ev.data with
  | started d => simp [Except.map, applyStarted, trim]
  | forked d => rfl
  | continued d => rfl
  | completed d => simp [Except.map, terminate, trim]
  | failed d => simp [Except.map, terminate, trim]
  | cancelled d => simp [Except.map, terminate, trim]
  | entered d => simp [Except.map, trim]
  | scheduled d =>
    refine congrArg Except.ok ?_
    have := trim_raiseNext keep s d.owner d.node d.index
    simp only [applyScheduled, trim] at this ⊢
    simp [this]
  | nodeDone d => exact trim_applyNodeDone s quote fl d
  | nodeFail d => exact congrArg Except.ok (trim_applyNodeFail s d)
  | interrupted d =>
    simp only [applyInterrupted, show (s.trim keep).tasks = s.tasks from rfl]
    cases s.tasks[d.key]? with
    | none => rfl
    | some t => simp [Except.map, trim, addUsage]
  | nodeCancel d => exact congrArg Except.ok (trim_settleTask s d.key _)
  | choice d => simp [Except.map]
  | fanout d => simp [Except.map, trim]
  | join d => exact congrArg Except.ok (trim_applyJoin s d)
  | await d => simp [Except.map, trim]
  | awaitTimeout d => simp [Except.map, trim, withoutAwaitTimer]
  | signal d => simp [Except.map, trim]
  | signalUse d =>
    simp only [applySignalUse, show (s.trim keep).buffered = s.buffered from rfl]
    cases s.buffered.find? fun b => b.id == d.id with
    | none => rfl
    | some b => simp [Except.map, trim, withoutAwaitTimer]
  | update d =>
    simp only [applyUpdate, show (s.trim keep).channels = s.channels from rfl]
    cases reduceAll quote fl s.channels d.writes.toList with
    | error e => rfl
    | ok channels => simp [Except.map, trim]
  | map d => simp [Except.map, trim]
  | mapDone d =>
    simp only [applyMapDone]
    rw [show (s.trim keep).maps[d.node]? = (s.maps[d.node]?).map MapRun.encoded from get_encodeMaps _ _]
    cases s.maps[d.node]? with
    | none => rfl
    | some m =>
      simp [Except.map, trim, MapRun.encoded, Raw.encoded, Function.comp_def]
      rfl
  | mapAbort d => simp [Except.map, trim, dropChildren]
  | child d =>
    refine congrArg Except.ok ?_
    have := trim_raiseNext keep s d.owner d.node d.index
    simp only [applyChild, trim] at this ⊢
    simp [this]
  | childDone d => exact trim_applyChildDone s d
  | timer d => simp [Except.map, trim]
  | fired d => simp [Except.map, trim]

theorem apply_trim (s : State) (quote : String → String) (fl : Flow) (ev : Event) :
    (s.apply quote fl ev).map (trim keep) = ((s.trim keep).apply quote fl ev).map (trim keep) := by
  unfold apply
  rw [show (s.trim keep).expectedIndex ev = s.expectedIndex ev from rfl]
  split
  · rfl
  · exact map_trim_congr (fun s => trim_finish s ev) (trim_applyData s quote fl ev)

end

@[simp] theorem encoded_encoded (s : State) : s.encoded.encoded = s.encoded := @trim_trim false s

/-- **A decoded copy of a state folds on as the state itself.** -/
theorem apply_encoded (s : State) (quote : String → String) (fl : Flow) (ev : Event) :
    (s.apply quote fl ev).map encoded = (s.encoded.apply quote fl ev).map encoded :=
  @apply_trim false s quote fl ev

end State

/-! ## What `Apply` carries along without looking at it -/

/-- The details of a state that no event but those that replace the state or end it reads or changes,
apart from the count of events and the time of the last one. -/
structure Details where
  lastSeq : Nat
  output : Raw
  events : Nat
  base : Nat
  segments : List Segment
  updated : Time

namespace State

def details (s : State) : Details := ⟨s.lastSeq, s.output, s.events, s.base, s.segments, s.updated⟩

def dress (v : Details) (s : State) : State :=
  { s with
    lastSeq := v.lastSeq, output := v.output, events := v.events, base := v.base, segments := v.segments
    updated := v.updated }

/-- A state after `p`, when the state before it had the details `v`. -/
def dressAfter (v : Details) (p : Payload) (s : State) : State :=
  match p with
  | .forked _ | .continued _ => s
  | .completed _ => s.dress { v with output := s.output }
  | _ => s.dress v

variable (v : Details)

theorem dress_settleTask (s : State) (k : String) (b : BranchStatus) :
    (s.dress v).settleTask k b = (s.settleTask k b).dress v := by
  simp only [settleTask, dress]
  split <;> rfl

theorem dress_recordOutput (s : State) (t : Task) (out : Raw) :
    (s.dress v).recordOutput t out = (s.recordOutput t out).map (dress v) := by
  simp only [recordOutput, recordItem, dress]
  cases s.maps[t.owner]? with
  | none => rfl
  | some m =>
    simp only
    split
    · split <;> rfl
    · rfl

theorem dress_applyNodeDone (s : State) (quote : String → String) (fl : Flow) (d : Event.NodeDone) :
    (s.dress v).applyNodeDone quote fl d = (s.applyNodeDone quote fl d).map (dress v) := by
  unfold applyNodeDone
  simp only [show (s.dress v).tasks = s.tasks from rfl, show (s.dress v).channels = s.channels from rfl]
  cases s.tasks[d.key]? with
  | none => rfl
  | some t =>
    simp only
    cases reduceAll quote fl s.channels d.writes.toList with
    | error e => rfl
    | ok channels =>
      show Except.map _ (((({ s with channels } : State).addUsage d.usage).dress v).recordOutput t d.output) =
        Except.map _ (Except.map _ ((({ s with channels } : State).addUsage d.usage).recordOutput t d.output))
      rw [dress_recordOutput]
      cases (({ s with channels } : State).addUsage d.usage).recordOutput t d.output with
      | error e => rfl
      | ok s₁ => exact congrArg Except.ok (dress_settleTask v s₁ d.key .completed)

theorem dress_applyChildDone (s : State) (d : Event.ChildDone) :
    (s.dress v).applyChildDone d = (s.applyChildDone d).map (dress v) := by
  simp only [applyChildDone, dress, addUsage, recordItem]
  cases s.children[d.instanceKey]? with
  | none => rfl
  | some c =>
    simp only
    split
    · split
      · split <;> rfl
      · rfl
    · rfl

theorem applyData_dress (s : State) (quote : String → String) (fl : Flow) (ev : Event) :
    (s.dress v).applyData quote fl ev = (s.applyData quote fl ev).map (dressAfter v ev.data) := by
  unfold applyData
  cases ev.data with
  | nodeDone d => exact dress_applyNodeDone v s quote fl d
  | nodeFail d =>
    simp only [applyNodeFail, show (s.dress v).tasks = s.tasks from rfl]
    cases s.tasks[d.key]? with
    | none => rfl
    | some t =>
      simp only
      split
      · rfl
      · refine congrArg Except.ok ?_
        simp only [settleTask, dress, dressAfter, addUsage]
        split <;> rfl
  | nodeCancel d => exact congrArg Except.ok (dress_settleTask v s d.key _)
  | interrupted d =>
    simp only [applyInterrupted, dress]
    cases s.tasks[d.key]? <;> rfl
  | join d =>
    simp only [applyJoin, dress]
    cases s.fans[d.fanout]? <;> rfl
  | signalUse d =>
    simp only [applySignalUse, dress]
    cases s.buffered.find? fun b => b.id == d.id <;> rfl
  | update d =>
    simp only [applyUpdate, dress]
    cases reduceAll quote fl s.channels d.writes.toList <;> rfl
  | mapDone d =>
    simp only [applyMapDone, dress]
    cases s.maps[d.node]? <;> rfl
  | childDone d => exact dress_applyChildDone v s d
  | _ => rfl

variable {t : State} {quote : String → String} {fl : Flow}

/-- An event that does not set them leaves the details as they were. -/
theorem dressAfter_self {s : State} {ev : Event}
    (h : s.applyData quote fl ev = .ok t) : dressAfter s.details ev.data t = t := by
  have := applyData_dress s.details s quote fl ev
  rw [show s.dress s.details = s from rfl, h] at this
  exact (Except.ok.inj this).symm

/-- A state without the sequence its last event was stored under. -/
def forget (s : State) : State := { s with lastSeq := 0 }

theorem apply_forget (s : State) (quote : String → String) (fl : Flow) (ev : Event) :
    (s.apply quote fl ev).map forget = (s.forget.apply quote fl ev).map forget := by
  unfold apply
  rw [show s.forget.expectedIndex ev = s.expectedIndex ev from rfl,
    show s.forget = s.dress { s.details with lastSeq := 0 } from rfl, applyData_dress]
  split
  · rfl
  · cases ht : s.applyData quote fl ev with
    | error e => rfl
    | ok t =>
      have hself := dressAfter_self ht
      refine congrArg Except.ok ?_
      have hdress : t.forget = (dressAfter { s.details with lastSeq := 0 } ev.data t).forget := by
        cases hp : ev.data <;> rw [hp] at hself <;> first | rfl | exact (congrArg forget hself).symm
      exact congrArg (fun u => u.finish ev) hdress

/-- What two states agree on when they differ only in their encoding and in where they were stored. -/
def core (s : State) : State := s.encoded.forget

theorem apply_core (s : State) (quote : String → String) (fl : Flow) (ev : Event) :
    (s.apply quote fl ev).map core = (s.core.apply quote fl ev).map core := by
  have hmap : ∀ {a b : Except Err State}, a.map forget = b.map forget → a.map core = b.map core := by
    intro a b h
    have hcomm : ∀ c : Except Err State, c.map core = (c.map forget).map encoded := fun c => by cases c <;> rfl
    rw [hcomm a, hcomm b, h]
  calc (s.apply quote fl ev).map core = ((s.apply quote fl ev).map encoded).map forget := by
        cases s.apply quote fl ev <;> rfl
    _ = ((s.encoded.apply quote fl ev).map encoded).map forget := by rw [apply_encoded]
    _ = (s.encoded.apply quote fl ev).map core := by cases s.encoded.apply quote fl ev <;> rfl
    _ = (s.core.apply quote fl ev).map core := hmap (apply_forget s.encoded quote fl ev)

def Alike (s s' : State) : Prop := s.core = s'.core

namespace Alike

variable {s s' s'' : State}

theorem refl (s : State) : s.Alike s := rfl

theorem symm (h : s.Alike s') : s'.Alike s := Eq.symm h

theorem trans (h : s.Alike s') (h' : s'.Alike s'') : s.Alike s'' := Eq.trans h h'

theorem work (h : s.Alike s') : s.work = s'.work := by
  have : s.encoded.forget.work = s'.encoded.forget.work := congrArg State.work h
  exact (work_encoded s).symm.trans (this.trans (work_encoded s'))

theorem status (h : s.Alike s') : s.status = s'.status :=
  show s.core.status = s'.core.status from congrArg State.status (show s.core = s'.core from h)

theorem events (h : s.Alike s') : s.events = s'.events :=
  show s.core.events = s'.core.events from congrArg State.events (show s.core = s'.core from h)

theorem flow (h : s.Alike s') : s.flow = s'.flow :=
  show s.core.flow = s'.core.flow from congrArg State.flow (show s.core = s'.core from h)

theorem n (h : s.Alike s') : s.n = s'.n := show s.work.n = s'.work.n by rw [h.work]

/-- States that are alike accept the same event and are alike after it. -/
theorem apply {quote : String → String} {fl : Flow} {ev : Event} {t : State} (h : s.Alike s')
    (ht : s.apply quote fl ev = .ok t) : ∃ t', s'.apply quote fl ev = .ok t' ∧ t.Alike t' := by
  have heq := apply_core s quote fl ev
  rw [show s.core = s'.core from h, ← apply_core s' quote fl ev, ht] at heq
  cases ht' : s'.apply quote fl ev with
  | error e => rw [ht'] at heq; cases heq
  | ok t' => rw [ht'] at heq; exact ⟨t', rfl, Except.ok.inj heq⟩

end Alike

/-- States with the same encoding accept the same event and have the same encoding after it. -/
theorem marshal_apply {ev : Event} {s s' : State} (h : s.marshal = s'.marshal)
    (ht : s.apply quote fl ev = .ok t) : ∃ t', s'.apply quote fl ev = .ok t' ∧ t.marshal = t'.marshal := by
  have h : s.encoded = s'.encoded := congrArg Encoding.decoded h
  have heq := apply_encoded s quote fl ev
  rw [h, ← apply_encoded s' quote fl ev, ht] at heq
  cases ht' : s'.apply quote fl ev with
  | error e => rw [ht'] at heq; cases heq
  | ok t' => rw [ht'] at heq; exact ⟨t', rfl, congrArg Encoding.mk (Except.ok.inj heq)⟩

theorem marshal_replay {evs : List Event} {s s' : State} (h : s.marshal = s'.marshal)
    (ht : Replay.replay (State.apply quote fl) s evs = .ok t) :
    ∃ t', Replay.replay (State.apply quote fl) s' evs = .ok t' ∧ t.marshal = t'.marshal :=
  @Replay.replay_congr State Event Err (State.apply quote fl) s s' (fun s s' => s.marshal = s'.marshal)
    (fun h ht => marshal_apply h ht) t evs h ht

end State

/-! ## What only an event that bases a state sets -/

namespace State

/-- Who the execution is and who is told when it ends. -/
def origin (s : State) : String × Option ParentRef := (s.execID, s.parent)

theorem origin_settleTask (s : State) (key : String) (outcome : BranchStatus) : (s.settleTask key outcome).origin = s.origin := by
  unfold settleTask
  split <;> rfl

variable {s s' : State}

theorem origin_recordItem {owner : String} {m : MapRun} {index : Nat} {output : Raw}
    (h : s.recordItem owner m index output = .ok s') : s'.origin = s.origin := by
  unfold recordItem at h
  split at h <;> cases h
  rfl

theorem origin_recordOutput {t : Task} {output : Raw} (h : s.recordOutput t output = .ok s') :
    s'.origin = s.origin := by
  unfold recordOutput at h
  split at h
  · split at h
    · exact origin_recordItem h
    · cases h; rfl
  · cases h; rfl

theorem origin_applyChildDone {d : Event.ChildDone} (h : s.applyChildDone d = .ok s') : s'.origin = s.origin := by
  unfold applyChildDone at h
  simp only at h
  split at h
  · cases h; rfl
  · split at h
    · split at h
      · exact (origin_recordItem h).trans rfl
      · cases h; rfl
    · cases h; rfl

theorem origin_applyData {quote : String → String} {fl : Flow} {ev : Event} (hp : ev.data.isBase = false)
    (h : s.applyData quote fl ev = .ok s') : s'.origin = s.origin := by
  unfold applyData at h
  cases hd : ev.data <;> rw [hd] at hp <;> simp only [hd] at h
  case started d => cases hp
  case forked d => cases hp
  case continued d => cases hp
  case nodeDone d =>
    obtain ⟨t, channels, s₁, -, -, hr, rfl⟩ := applyNodeDone_steps h
    have hsame := origin_recordOutput hr
    exact (origin_settleTask _ _ _).trans hsame
  case nodeFail d =>
    cases h
    unfold applyNodeFail
    split
    · rfl
    · simp only
      split
      · rfl
      · exact origin_settleTask _ _ _
  case nodeCancel d => cases h; exact origin_settleTask _ _ _
  case join d =>
    cases h
    unfold applyJoin
    cases s.fans[d.fanout]? <;> rfl
  case childDone d => exact origin_applyChildDone h
  case interrupted d => unfold applyInterrupted at h; split at h <;> cases h; rfl
  case update d => unfold applyUpdate at h; split at h <;> cases h; rfl
  case mapDone d => unfold applyMapDone at h; split at h <;> cases h; rfl
  case signalUse d => unfold applySignalUse at h; split at h <;> cases h; rfl
  all_goals cases h; rfl

end State

end Packtrail
