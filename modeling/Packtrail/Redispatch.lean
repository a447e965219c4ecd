import Packtrail.Lineage
import Packtrail.Transparent
import Packtrail.Trace
import Packtrail.Forks

/-
# What a fork dispatches again

A fork begins with the state of its source and dispatches what was in flight there once more, under
fresh numbers (`rekick`, `internal/fold/decide.go:1255-1300`). `Payload.Rekicks` says which events that
takes; `Renews` says that the entries of a map were replaced, each once. **`fork_exact`** puts the state
after the first decision of a fork beside its source: everything is dispatched once and the rest is the
same, except that a result, a consumed signal or an output that is absent in the source comes back as
`null`.
-/

namespace Packtrail

open Replay Emitter

/-! ## Replacing the entries of a map, each once -/

section
variable {V : Type} {skip : V → Prop} {R : V → V → Prop} {old new : SMap V} {keys : List String}

/-- `new` is `old` with the entries at `keys` replaced by ones that `R` relates to them, each once; entries that satisfy
`skip` are not replaced. -/
def Renews (skip : V → Prop) (R : V → V → Prop) (old new : SMap V) (keys : List String) : Prop :=
  ∀ k : String, (old[k]? = none → new[k]? = none ∧ k ∉ keys) ∧
    ∀ v, old[k]? = some v → (new[k]? = some v ∧ k ∉ keys) ∨
      (¬ skip v ∧ keys.count k = 1 ∧ ∃ v', new[k]? = some v' ∧ R v v')

theorem Renews.refl (old : SMap V) : Renews skip R old old [] :=
  fun _ => ⟨fun h => ⟨h, by simp⟩, fun _ h => .inl ⟨h, by simp⟩⟩

/-- One more entry is replaced: it is an old one, and those put in are new. -/
theorem Renews.renew (h : Renews skip R old new keys) (Old : V → Prop) (hnew : ∀ v v', R v v' → ¬ Old v') {k : String} {v v' : V}
    (hk : new[k]? = some v) (hold : Old v) (hs : ¬ skip v) (hR : R v v') : Renews skip R old (new.insert k v') (keys ++ [k]) := by
  intro a
  by_cases ha : k = a
  · subst ha
    refine ⟨fun hn => ?_, fun w hw => .inr ?_⟩
    · rw [((h k).1 hn).1] at hk
      cases hk
    · rcases (h k).2 w hw with ⟨hget, hnot⟩ | ⟨-, -, w', hw', hRw⟩
      · cases hk.symm.trans hget
        refine ⟨hs, ?_, v', by rw [get_insert, if_pos rfl], hR⟩
        rw [List.count_append, List.count_eq_zero_of_not_mem hnot]
        simp
      · cases hk.symm.trans hw'
        exact absurd hold (hnew w v hRw)
  · have hcount : (keys ++ [k]).count a = keys.count a := by
      rw [List.count_append, List.count_singleton]
      simp [ha]
    have hmem : a ∈ keys ++ [k] ↔ a ∈ keys := by simp [Ne.symm ha]
    rw [get_insert, if_neg ha, hcount, hmem]
    exact h a

/-- Once only new or skipped entries are left, every other was replaced. -/
theorem Renews.all (h : Renews skip R old new keys) {k : String} {v : V} (hk : old[k]? = some v)
    (hnew : ∀ v', new[k]? = some v' → v' ≠ v) : keys.count k = 1 ∧ ∃ v', new[k]? = some v' ∧ R v v' := by
  rcases (h k).2 v hk with ⟨hget, -⟩ | ⟨-, hc, hR⟩
  · exact absurd rfl (hnew v hget)
  · exact ⟨hc, hR⟩

theorem Renews.skipped (h : Renews skip R old new keys) {k : String} {v : V} (hk : old[k]? = some v) (hs : skip v) :
    new[k]? = some v ∧ k ∉ keys := by
  rcases (h k).2 v hk with hget | ⟨hns, -⟩
  · exact hget
  · exact absurd hs hns

end

/-! ## The events of a fork -/

/-- What a fork of `src` may emit in state `s`: its first event and its edit, work that is in flight under a number of the
source, timers, or its end. -/
def Payload.Rekicks (src : State) (s : State) : Payload → Prop
  | .forked d => d.state = src.marshal
  | .scheduled d => ∃ t, s.tasks[d.key]? = some t ∧ t.status ≠ .interrupted ∧ t.generation ≤ src.n ∧ d.Of t ∧ d.attempt = 1 ∧
      d.resume = t.resume ∧ d.resumedBy = t.resumedBy
  | .await d => ∃ a m, s.awaits[d.node]? = some a ∧ a.signal = d.signal ∧ m ≤ src.n ∧ a.timerID = timerID m ∧
      d.timerID = timerID (s.n + 1)
  | .child d => ∃ ch, s.children[d.instanceKey]? = some ch ∧ ch.node = d.node ∧ ch.owner = d.owner ∧ ch.index = d.index
  | .timer _ | .update _ | .failed _ => True
  | _ => False

/-- Every event of program `m` is one of a fork of `src`, and `Q` holds once it has run. -/
def Rekicks {α : Type} (c : Ctx) (src : State) (m : DecM α) (s : State) (Q : α → State → Prop) : Prop :=
  Runs c.apply (fun s ev => ev.data.Rekicks src s) (fun _ => True) m s Q

/-- Events that change only what is in flight. -/
def Payload.dispatches : Payload → Bool
  | .scheduled _ | .timer _ | .await _ | .child _ => true
  | _ => false

section
variable {c : Ctx} {src s : State} {base : Nat}

theorem State.apply_channels {quote : String → String} {fl : Flow} {ev : Event} {s' : State} (hp : ev.data.dispatches = true)
    (h : s.apply quote fl ev = .ok s') : s'.channels = s.channels := by
  obtain ⟨-, s₁, hs₁, rfl⟩ := State.apply_ok.1 h
  unfold State.applyData at hs₁
  cases hd : ev.data with
  | scheduled d => rw [hd] at hs₁; cases hs₁; rfl
  | timer d => rw [hd] at hs₁; cases hs₁; rfl
  | await d => rw [hd] at hs₁; cases hs₁; rfl
  | child d => rw [hd] at hs₁; cases hs₁; rfl
  | _ => rw [hd] at hp; cases hp

theorem rekicks_emit {p : Payload} {Q : Unit → State → Prop} (h : p.Rekicks src s) (hp : p.dispatches = true)
    (hQ : ∀ s', s'.work = s.work.step p → s'.channels = s.channels → Q () s') : Rekicks c src (emit c p) s Q :=
  Runs.emitAny h (fun s' happ => hQ s' (State.apply_work happ) (State.apply_channels hp happ)) fun _ _ => trivial

theorem rekicks_bind {p : Payload} {α : Type} {f : Unit → DecM α} {Q : α → State → Prop} (h : p.Rekicks src s)
    (hp : p.dispatches = true)
    (hf : ∀ s', s'.work = s.work.step p → s'.channels = s.channels → Rekicks c src (f ()) s' Q) :
    Rekicks c src (emit c p >>= f) s Q := by
  have hemit : Rekicks c src (emit c p) s fun _ s' => s'.work = s.work.step p ∧ s'.channels = s.channels :=
    rekicks_emit h hp fun _ hw hc => ⟨hw, hc⟩
  exact hemit.bind fun _ s' hs => hf s' hs.1 hs.2

theorem rekicks_nodeOf {id : String} {α : Type} {f : Node → DecM α} {Q : α → State → Prop}
    (h : ∀ n, c.fl.node id = some n → Rekicks c src (f n) s Q) : Rekicks c src (nodeOf c id >>= f) s Q := by
  unfold nodeOf
  cases hn : c.fl.node id with
  | none => exact Runs.throw trivial
  | some n => exact h n hn

/-- A task is scheduled again under its key. -/
theorem rekicks_schedule {n : Node} {t : Task} (ht : s.tasks[t.key]? = some t) (hs : t.status ≠ .interrupted)
    (hg : t.generation ≤ src.n) (hn : n.id = t.node) :
    Rekicks c src (schedule c n t.key t.owner t.index t.item t.resumption 0 1) s fun _ s' => s'.channels = s.channels ∧
      s'.work.awaits = s.work.awaits ∧ ∀ k : String, k ≠ t.key → s'.tasks[k]? = s.tasks[k]? := by
  unfold schedule
  refine Runs.getSt (rekicks_bind ⟨t, ht, hs, hg, ⟨hn, rfl, rfl, rfl⟩, rfl, rfl, rfl⟩ rfl fun s₁ hw₁ hc₁ => ?_)
  have hothers : ∀ k : String, k ≠ t.key → s₁.work.tasks[k]? = s.tasks[k]? := by
    intro k hne
    rw [hw₁]
    show (s.work.tasks.insert t.key _)[k]? = _
    rw [get_insert, if_neg (Ne.symm hne)]
    rfl
  have hawaits : s₁.work.awaits = s.work.awaits := by rw [hw₁]; rfl
  split
  · unfold timerAt
    refine Runs.getSt (rekicks_emit trivial rfl fun s₂ hw₂ hc₂ => ⟨hc₂.trans hc₁, ?_, fun k hne => ?_⟩)
    · rw [hw₂]
      exact hawaits
    · show s₂.work.tasks[k]? = _
      rw [hw₂]
      exact hothers k hne
  · exact Runs.pure ⟨hc₁, hawaits, hothers⟩

theorem rekickTasks_rekicks : ∀ {keys : List String} {s : State}, keys.Nodup →
    (∀ (k : String) (t : Task), k ∈ keys → s.tasks[k]? = some t → t.key = k ∧ t.generation ≤ src.n) →
    Rekicks c src (rekickTasks c keys) s fun _ s' => s'.channels = s.channels ∧ s'.work.awaits = s.work.awaits
  | [], s, _, _ => Runs.pure ⟨rfl, rfl⟩
  | key :: keys, s, hnd, hkeys => by
    rw [List.nodup_cons] at hnd
    unfold rekickTasks
    refine Runs.getSt ?_
    cases ht : s.tasks[key]? with
    | none => exact Runs.throw trivial
    | some t =>
      obtain ⟨rfl, hg⟩ := hkeys key t List.mem_cons_self ht
      simp only
      split
      · exact rekickTasks_rekicks hnd.2 fun k t' hk => hkeys k t' (List.mem_cons_of_mem _ hk)
      · rename_i hs
        refine rekicks_nodeOf fun n hn => (rekicks_schedule ht hs hg (Flow.node_id hn)).bind fun _ s₁ h₁ => ?_
        obtain ⟨hc, ha, ho⟩ := h₁
        refine (rekickTasks_rekicks hnd.2 fun k t' hk hget => ?_).mono fun _ s₂ h₂ => ⟨h₂.1.trans hc, h₂.2.trans ha⟩
        have hne : k ≠ t.key := fun he => hnd.1 (he ▸ hk)
        rw [ho k hne] at hget
        exact hkeys k t' (List.mem_cons_of_mem _ hk) hget

/-- Every await gets a new timer; no signal waits for it. -/
theorem rekickAwaits_rekicks (hp : Progress c.fl s.work)
    (hold : ∀ (k : String) (a : AwaitState), s.work.awaits[k]? = some a → ∃ m ≤ src.n, a.timerID = timerID m) :
    Rekicks c src (rekickAwaits c s.awaits.keys) s fun _ s' => s'.channels = s.channels := by
  rcases hp.awaits_cases with he | ⟨k, a, h, hquiet⟩
  · rw [show s.awaits = ∅ from he]
    exact Runs.pure rfl
  · obtain ⟨n, hn, -, hsig⟩ := h.type
    obtain rfl : n.id = k := Flow.node_id hn
    have hget : s.work.awaits[n.id]? = some a := by rw [h.awaits, get_single_self]
    obtain ⟨m, hm, htimer⟩ := hold n.id a hget
    rw [show s.awaits = single n.id a from h.awaits, keys_single]
    unfold rekickAwaits
    refine rekicks_nodeOf fun n' hn' => ?_
    cases hn.symm.trans hn'
    have hawait : Rekicks c src (await c (enter c) n) s fun _ s' => s'.channels = s.channels := by
      unfold await
      refine Runs.getSt (rekicks_bind ⟨a, m, hget, hsig.symm, hm, htimer, rfl⟩ rfl fun s₁ hw₁ hc₁ => ?_)
      refine rekicks_bind trivial rfl fun s₂ hw₂ hc₂ => ?_
      have hbuf : s₂.buffered = s.buffered := by
        show s₂.work.buffered = s.work.buffered
        rw [hw₂, hw₁]
        rfl
      have hnone : s₂.buffered.find? (fun b => b.name == n.signal) = none := by
        rw [List.find?_eq_none, hbuf]
        intro b hb he
        exact hquiet b hb (by simpa [hsig] using he)
      unfold consume
      refine Runs.getSt ?_
      rw [hnone]
      exact Runs.pure (hc₂.trans hc₁)
    exact hawait.bind fun _ s' h' => Runs.pure h'

theorem rekickChildren_over (he : s.Ended) : ∀ keys, Rekicks c src (rekickChildren c keys) s fun _ s' => s'.Ended
  | [] => Runs.pure he
  | key :: keys => by
    unfold rekickChildren
    refine Runs.getSt ?_
    rw [if_pos he.status]
    exact Runs.pure he

theorem rekickChildren_rekicks : ∀ {keys : List String} {s : State}, (s.Ended ∨ s.work.ChildrenFiled c.fl) →
    Rekicks c src (rekickChildren c keys) s fun _ s' => s'.Ended ∨ s'.channels = s.channels
  | [], s, _ => Runs.pure (.inr rfl)
  | key :: keys, s, hf => by
    unfold rekickChildren
    refine Runs.getSt ?_
    split
    · exact Runs.pure (.inr rfl)
    · rename_i hlive
      have hf := hf.resolve_left fun he => hlive he.status
      split
      · exact Runs.throw trivial
      · rename_i ch hch
        obtain ⟨-, hnode, hne⟩ := hf key ch hch
        rw [hnode]
        refine rekicks_nodeOf fun n hn => ?_
        have hid : n.id = ch.node := Flow.node_id hn
        refine (startChild_any (.inr hne) (fun _ => trivial) fun d hdn hkey howner hindex => ?_).bind fun _ s' h' => ?_
        · exact ⟨ch, hkey.symm ▸ hch, hid.symm.trans hdn.symm, howner.symm, hindex.symm⟩
        · rcases h' with he | ⟨d, hdn, hkey, -, -, happ⟩
          · exact (rekickChildren_over he keys).mono fun _ _ he => .inl he
          · have hchildren : s'.work.children = s.work.children.insert key ⟨d.childID, d.flow, d.policy, d.node, d.owner, d.index⟩ := by
              rw [State.apply_work happ]
              show s.work.children.insert d.instanceKey _ = _
              rw [hkey]
            have hdisp : (c.event (.child d) s).data.dispatches = true := rfl
            have hkeep : s'.channels = s.channels := State.apply_channels hdisp happ
            refine (rekickChildren_rekicks (.inr (hf.rehire hch (hdn.trans hid) hchildren))).mono fun _ s₂ h₂ => ?_
            exact h₂.imp_right fun h => h.trans hkeep

theorem rekick_rekicks (wf : WellFormed c.fl) (hu : Unfinished c.fl src.n s) (hp : Progress c.fl s.work)
    (hgen : ∀ (k : String) (t : Task), s.work.tasks[k]? = some t → t.generation ≤ src.n)
    (hold : ∀ (k : String) (a : AwaitState), s.work.awaits[k]? = some a → ∃ m ≤ src.n, a.timerID = timerID m) :
    Rekicks c src (rekick c) s fun _ s' => s'.Ended ∨ s'.channels = s.channels := by
  unfold rekick
  refine Runs.getSt ?_
  refine (Runs.beside (rekickTasks_all hu hp hgen)
    (rekickTasks_rekicks Std.ExtTreeMap.nodup_keys fun k t _ ht => ⟨(hu.sound.task ht).key, hgen k t ht⟩)).bind
    fun _ s₁ ⟨⟨hu₁, hp₁, hd₁, _⟩, hc₁, ha₁⟩ => Runs.getSt ?_
  refine (Runs.beside (rekickAwaits_runs hu₁ hp₁ hd₁) (rekickAwaits_rekicks hp₁ (by rw [ha₁]; exact hold))).bind
    fun _ s₂ ⟨⟨_, hp₂, _⟩, hc₂⟩ => Runs.getSt (Runs.setAux ?_)
  refine (rekickChildren_rekicks (.inr fun k ch hget => hp₂.child_node wf hget)).mono fun _ s₃ h₃ => ?_
  exact h₃.imp_right fun h => h.trans (hc₂.trans hc₁)

/-- The first decision of a fork: its events, and the channels it leaves. -/
theorem forkProg_rekicks (wf : WellFormed c.fl) (ha : s.Absent) (hsrc : Unfinished c.fl base src)
    (hr : src.work.Rested c.fl base) (source : String) (seq : Nat) (writes : SMap Json) :
    Rekicks c src (forkProg c src source seq writes) s fun _ s' =>
      s'.Ended ∨ State.reduceAll c.x.quote c.fl src.channels writes.toList = .ok s'.channels := by
  have hold : ∀ (k : String) (a : AwaitState), src.work.awaits[k]? = some a → ∃ m ≤ src.n, a.timerID = timerID m := by
    intro k a hget
    obtain ⟨tm, htm, -⟩ := hr.awaits k a hget
    obtain ⟨-, hid, hle⟩ := hsrc.sound.timer htm
    exact ⟨tm.n, hle, hid⟩
  have hfork : Rekicks c src (emit c (.forked { execID := s.execID, source, seq, state := src.marshal })) s fun _ s' =>
      s'.channels = src.channels ∧ s'.work.awaits = src.work.awaits := by
    refine Runs.emitAny rfl (fun s' happ => ⟨?_, ?_⟩) fun _ _ => trivial
    · obtain ⟨-, s₁, hs₁, rfl⟩ := State.apply_ok.1 happ
      cases hs₁
      rfl
    · rw [State.apply_work happ]
      rfl
  unfold forkProg
  refine Runs.getSt ?_
  refine (Runs.beside (forked_runs ha (.inr ⟨hsrc, hr⟩)) hfork).bind fun _ s₁ h₁ => Runs.getSt ?_
  obtain ⟨he | ⟨hu, hp, hgen, -⟩, hc₁, ha₁⟩ := h₁
  · rw [if_pos he.status, if_pos he.status]
    split
    · exact Runs.pure (.inl he)
    · exact Runs.throw trivial
  · have hst : s₁.status.terminal = false := hu.live.unended
    simp only [hst, Bool.false_eq_true, if_false]
    split
    · rename_i hempty
      have hnil : writes.toList = [] := by
        rw [Std.ExtTreeMap.isEmpty_iff.1 hempty]
        rfl
      refine (rekick_rekicks wf hu hp hgen (by rw [ha₁]; exact hold)).mono fun _ s₂ h₂ => h₂.imp_right fun hc => ?_
      rw [hnil, hc, hc₁]
      rfl
    · split
      · exact Runs.throw trivial
      · rename_i u hw
        have hedit : Rekicks c src (emit c (.update { id := c.cmdID, writes })) s₁ fun _ s' =>
            State.reduceAll c.x.quote c.fl s₁.channels writes.toList = .ok s'.channels := by
          refine Runs.emitAny trivial (fun s' happ => ?_) fun _ _ => trivial
          obtain ⟨-, s₂, hs₂, rfl⟩ := State.apply_ok.1 happ
          simp only [State.applyData, Ctx.event, State.applyUpdate] at hs₂
          split at hs₂
          · cases hs₂
          · rename_i channels hred
            cases hs₂
            exact hred
        refine (Runs.beside (edit_runs c.cmdID hu hw) hedit).bind fun _ s₂ h₂ => ?_
        obtain ⟨⟨hu₂, hw₂⟩, hred⟩ := h₂
        refine (rekick_rekicks wf hu₂ (by rw [hw₂]; exact hp) (by rw [hw₂]; exact hgen) (by rw [hw₂, ha₁]; exact hold)).mono
          fun _ s₃ h₃ => h₃.imp_right fun hc => ?_
        rw [hc, ← hc₁]
        exact hred

end

/-! ## The state beside its source -/

/-- The key of the task an event schedules. -/
def Event.reschedules (ev : Event) : Option String :=
  match ev.data with
  | .scheduled d => some d.key
  | _ => none

/-- The node of the await an event opens. -/
def Event.rearms (ev : Event) : Option String :=
  match ev.data with
  | .await d => some d.node
  | _ => none

/-- The key of the child an event starts. -/
def Event.restarts (ev : Event) : Option String :=
  match ev.data with
  | .child d => some d.instanceKey
  | _ => none

/-- The number an event hands out is above `base`. -/
def Event.Above (base : Nat) (ev : Event) : Prop :=
  match ev.data with
  | .scheduled d => base < d.generation
  | .timer d => base < d.n
  | .child d => base < d.childN
  | _ => True

/-- What the event dispatches is in flight in `src`. -/
def Event.Resends (src : State) (ev : Event) : Prop :=
  match ev.data with
  | .scheduled d => ∃ t, src.tasks[d.key]? = some t ∧ d.Of t
  | .child d => ∃ ch, src.children[d.instanceKey]? = some ch ∧ ch.node = d.node ∧ ch.owner = d.owner ∧ ch.index = d.index
  | _ => True

/-- Task `t'` is `t` scheduled afresh. -/
structure Task.Again (base : Nat) (t t' : Task) : Prop where
  node : t'.node = t.node
  owner : t'.owner = t.owner
  index : t'.index = t.index
  item : t'.item = t.item
  resume : t'.resume = t.resume
  resumedBy : t'.resumedBy = t.resumedBy
  attempt : t'.attempt = 1
  status : t'.status = .scheduled
  generation : base < t'.generation

structure AwaitState.Again (base : Nat) (a a' : AwaitState) : Prop where
  signal : a'.signal = a.signal
  timer : ∃ m, base < m ∧ a'.timerID = Packtrail.timerID m

structure ChildState.Again (base : Nat) (ch ch' : ChildState) : Prop where
  node : ch'.node = ch.node
  owner : ch'.owner = ch.owner
  index : ch'.index = ch.index
  number : ∃ m, base < m ∧ Numbered ch'.childID m

/-- What a fork takes over as it is. -/
structure Backdrop where
  fans : SMap Fan
  maps : SMap MapRun
  results : SMap Raw
  lastNode : String
  visits : SMap Nat
  steps : Nat
  counters : SMap Rat
  errors : SMap NodeError
  branches : SMap BranchStatus
  signals : SMap Raw
  buffered : List Buffered

def State.backdrop (s : State) : Backdrop :=
  ⟨s.fans, s.maps, s.results, s.lastNode, s.visits, s.steps, s.counters, s.errors, s.branches, s.signals, s.buffered⟩

/-- The fork of `src` after the events `done`. -/
structure Reforking (src : State) (done : List Event) (s : State) : Prop where
  tasks : Renews (·.status = .interrupted) (Task.Again src.n) src.tasks s.tasks (done.filterMap Event.reschedules)
  awaits : Renews (fun _ => False) (AwaitState.Again src.n) src.awaits s.awaits (done.filterMap Event.rearms)
  children : Renews (fun _ => False) (ChildState.Again src.n) src.children s.children (done.filterMap Event.restarts)
  timers : ∀ (id : String) (tm : Timer), s.timers[id]? = some tm → src.n < tm.n
  n : src.n ≤ s.n
  above : ∀ ev ∈ done, ev.Above src.n
  resends : ∀ ev ∈ done, ev.Resends src
  backdrop : s.backdrop = src.encoded.backdrop

section
variable {x : Ext} {fl : Flow} {src s s' : State} {done : List Event} {ev : Event}

/-- What is in flight in an open map was started. -/
structure State.Started (s : State) : Prop where
  task : ∀ (k : String) (t : Task) (r : MapRun), s.tasks[k]? = some t → s.maps[t.owner]? = some r → t.index + 1 ≤ r.next
  child : ∀ (k : String) (ch : ChildState) (r : MapRun), s.children[k]? = some ch → s.maps[ch.owner]? = some r →
    ch.index + 1 ≤ r.next

theorem Progress.started (h : Progress fl s.work) : s.Started := by
  have empty : s.work.maps = ∅ → s.Started := by
    intro he
    have hno : ∀ k : String, s.maps[k]? = none := fun k => no_map_of_empty he k
    refine ⟨fun k t r _ hr => ?_, fun k ch r _ hr => ?_⟩
    · rw [hno] at hr
      cases hr
    · rw [hno] at hr
      cases hr
  cases h with
  | task h => exact empty h.rest.maps
  | await h _ => exact empty h.rest.maps
  | child h => exact empty h.rest.maps
  | fan h _ => exact empty h.rest.maps
  | @map m r h _ =>
    have same : ∀ {owner : String} {run : MapRun}, s.maps[owner]? = some run → run.next = r.next := by
      intro owner run hr
      have hget := State.work_maps_of hr
      rw [h.maps] at hget
      rw [← (get_of_single hget).2]
      rfl
    refine ⟨fun k t run ht hr => ?_, fun k ch run hch hr => ?_⟩
    · rw [same hr]
      exact (h.task ht).2.2.1
    · rw [same hr]
      exact (h.child hch).2.2.1

theorem State.raiseNext_started {owner node : String} {index : Nat}
    (h : ∀ r, s.maps[owner]? = some r → index + 1 ≤ r.next) : s.raiseNext owner node index = s.maps := by
  unfold State.raiseNext
  cases hr : s.maps[owner]? with
  | none => rfl
  | some r =>
    simp only
    split
    · rw [max_eq_left (h r hr)]
      apply Std.ExtTreeMap.ext_getElem?
      intro a
      rw [get_insert]
      split
      · rename_i he
        rw [← he, hr]
      · rfl
    · rfl

theorem Reforking.next (h : Reforking src done s) {owner : String} {r : MapRun} (hr : s.maps[owner]? = some r) :
    ∃ r₀, src.maps[owner]? = some r₀ ∧ r₀.next = r.next := by
  have hmaps : s.maps = src.encoded.maps := congrArg Backdrop.maps h.backdrop
  rw [hmaps] at hr
  have hr : (src.maps.map fun _ m => m.encoded)[owner]? = some r := hr
  rw [Std.ExtTreeMap.getElem?_map] at hr
  obtain ⟨r₀, hr₀, rfl⟩ := Option.map_eq_some_iff.1 hr
  exact ⟨r₀, hr₀, rfl⟩

/-- A task under a number of the source is the source's own. -/
theorem Reforking.inherited_task (h : Reforking src done s) {k : String} {t : Task} (ht : s.tasks[k]? = some t)
    (hle : t.generation ≤ src.n) : src.tasks[k]? = some t := by
  cases hk : src.tasks[k]? with
  | none =>
    rw [((h.tasks k).1 hk).1] at ht
    cases ht
  | some t₀ =>
    rcases (h.tasks k).2 t₀ hk with ⟨hget, -⟩ | ⟨-, -, t', hget, hagain⟩
    · exact hget.symm.trans ht
    · cases ht.symm.trans hget
      exact absurd hagain.generation (Nat.not_lt.2 hle)

theorem Reforking.inherited_child (h : Reforking src done s) {k : String} {ch : ChildState} (hch : s.children[k]? = some ch)
    (hold : ∃ m ≤ src.n, Numbered ch.childID m) : src.children[k]? = some ch := by
  cases hk : src.children[k]? with
  | none =>
    rw [((h.children k).1 hk).1] at hch
    cases hch
  | some ch₀ =>
    rcases (h.children k).2 ch₀ hk with ⟨hget, -⟩ | ⟨-, -, ch', hget, hagain⟩
    · exact hget.symm.trans hch
    · cases hch.symm.trans hget
      obtain ⟨m, hm, hnum⟩ := hagain.number
      obtain ⟨m', hle, hnum'⟩ := hold
      have := hnum.inj hnum'
      omega

theorem forall_snoc {P : Event → Prop} (h : ∀ e ∈ done, P e) (hev : P ev) : ∀ e ∈ done ++ [ev], P e := by
  intro e he
  rcases List.mem_append.1 he with he | he
  · exact h e he
  · rw [List.mem_singleton.1 he]
    exact hev

theorem filterMap_snoc_none {f : Event → Option String} (h : f ev = none) : (done ++ [ev]).filterMap f = done.filterMap f := by
  simp [List.filterMap_append, h]

theorem filterMap_snoc_some {f : Event → Option String} {k : String} (h : f ev = some k) :
    (done ++ [ev]).filterMap f = done.filterMap f ++ [k] := by
  simp [List.filterMap_append, h]

/-- An event that leaves tasks, awaits and children alone. -/
theorem Reforking.keep (h : Reforking src done s) (ht : s'.tasks = s.tasks) (ha : s'.awaits = s.awaits)
    (hc : s'.children = s.children) (htm : ∀ (id : String) (tm : Timer), s'.timers[id]? = some tm → src.n < tm.n)
    (hn : s.n ≤ s'.n) (hab : ev.Above src.n) (hre : ev.Resends src) (hb : s'.backdrop = s.backdrop) (h1 : ev.reschedules = none)
    (h2 : ev.rearms = none) (h3 : ev.restarts = none) : Reforking src (done ++ [ev]) s' where
  tasks := by rw [filterMap_snoc_none h1, ht]; exact h.tasks
  awaits := by rw [filterMap_snoc_none h2, ha]; exact h.awaits
  children := by rw [filterMap_snoc_none h3, hc]; exact h.children
  timers := htm
  n := h.n.trans hn
  above := forall_snoc h.above hab
  resends := forall_snoc h.resends hre
  backdrop := hb.trans h.backdrop

end

/-! ### One event at a time -/

section
variable {x : Ext} {fl : Flow} {src s s' : State} {done : List Event} {ev : Event}

variable (h : Reforking src done s)

include h

theorem Reforking.scheduled (hs : src.Started) {d : Event.Scheduled} (hd : ev.data = .scheduled d)
    (ho : s.work.FreshRun src.n d ∨ s.work.RetryRun src.n d) (hr : (Payload.scheduled d).Rekicks src s) :
    Reforking src (done ++ [ev]) ((s.applyScheduled d).finish ev) := by
  obtain ⟨t, ht, hst, hgen, hof, hatt, hres, hby⟩ := hr
  have hfresh : d.generation = s.n + 1 := by
    rcases ho with hf | ⟨t', ht', -, -, -, hlt⟩
    · exact hf.2.1
    · cases ht.symm.trans ht'
      omega
  have hlt : src.n < d.generation := by
    have := h.n
    omega
  have hinherited := h.inherited_task ht hgen
  have hnext : s.raiseNext d.owner d.node d.index = s.maps := by
    refine State.raiseNext_started fun r hget => ?_
    obtain ⟨r₀, hr₀, hr⟩ := h.next hget
    rw [hof.owner] at hr₀
    rw [hof.index, ← hr]
    exact hs.task d.key t r₀ hinherited hr₀
  refine
    { tasks := ?_
      awaits := by rw [filterMap_snoc_none (by simp [Event.rearms, hd])]; exact h.awaits
      children := by rw [filterMap_snoc_none (by simp [Event.restarts, hd])]; exact h.children
      timers := h.timers
      n := h.n.trans (le_max_left _ _)
      above := forall_snoc h.above (by simpa [Event.Above, hd] using hlt)
      resends := forall_snoc h.resends (by simpa [Event.Resends, hd] using ⟨t, hinherited, hof⟩)
      backdrop := ?_ }
  · rw [filterMap_snoc_some (show ev.reschedules = some d.key by simp [Event.reschedules, hd])]
    exact h.tasks.renew (·.generation ≤ src.n) (fun v v' hv hle => absurd hv.generation (Nat.not_lt.2 hle)) ht hgen hst
      ⟨hof.node, hof.owner, hof.index, hof.item, hres, hby, hatt, rfl, hlt⟩
  · refine Eq.trans ?_ h.backdrop
    simp only [State.backdrop, State.finish, State.applyScheduled, hnext]

theorem Reforking.child (hs : src.Started) {d : Event.Child} (hd : ev.data = .child d)
    (ho : d.childN = s.n + 1 ∧ Numbered d.childID d.childN ∧ s.work.ReplacesInherited src.n d)
    (hr : (Payload.child d).Rekicks src s) : Reforking src (done ++ [ev]) ((s.applyChild d).finish ev) := by
  obtain ⟨ch, hch, hnode, howner, hindex⟩ := hr
  obtain ⟨hn, hnum, hrep⟩ := ho
  have hlt : src.n < d.childN := by
    have := h.n
    omega
  have hinherited := h.inherited_child hch (hrep ch hch)
  have hnext : s.raiseNext d.owner d.node d.index = s.maps := by
    refine State.raiseNext_started fun r hget => ?_
    obtain ⟨r₀, hr₀, hr⟩ := h.next hget
    rw [← howner] at hr₀
    rw [← hindex, ← hr]
    exact hs.child d.instanceKey ch r₀ hinherited hr₀
  refine
    { tasks := by rw [filterMap_snoc_none (by simp [Event.reschedules, hd])]; exact h.tasks
      awaits := by rw [filterMap_snoc_none (by simp [Event.rearms, hd])]; exact h.awaits
      children := ?_
      timers := h.timers
      n := h.n.trans (le_max_left _ _)
      above := forall_snoc h.above (by simpa [Event.Above, hd] using hlt)
      resends := forall_snoc h.resends (by simpa [Event.Resends, hd] using ⟨ch, hinherited, hnode, howner, hindex⟩)
      backdrop := ?_ }
  · rw [filterMap_snoc_some (show ev.restarts = some d.instanceKey by simp [Event.restarts, hd])]
    refine h.children.renew (fun ch => ∃ m ≤ src.n, Numbered ch.childID m) (fun v v' hv hold => ?_) hch (hrep ch hch) id
      ⟨hnode.symm, howner.symm, hindex.symm, d.childN, hlt, hnum⟩
    obtain ⟨m, hm, hnumber⟩ := hv.number
    obtain ⟨m', hle, hnumber'⟩ := hold
    have := hnumber.inj hnumber'
    omega
  · refine Eq.trans ?_ h.backdrop
    simp only [State.backdrop, State.finish, State.applyChild, hnext]

theorem Reforking.await {d : Event.Await} (hd : ev.data = .await d)
    (hr : (Payload.await d).Rekicks src s) :
    Reforking src (done ++ [ev]) (({ s with awaits := s.awaits.insert d.node ⟨d.signal, d.timerID⟩ } : State).finish ev) := by
  obtain ⟨a, m, ha, hsig, hm, hid, hid'⟩ := hr
  refine
    { tasks := by rw [filterMap_snoc_none (by simp [Event.reschedules, hd])]; exact h.tasks
      awaits := ?_
      children := by rw [filterMap_snoc_none (by simp [Event.restarts, hd])]; exact h.children
      timers := h.timers
      n := h.n
      above := forall_snoc h.above (by simp [Event.Above, hd])
      resends := forall_snoc h.resends (by simp [Event.Resends, hd])
      backdrop := h.backdrop }
  rw [filterMap_snoc_some (show ev.rearms = some d.node by simp [Event.rearms, hd])]
  refine h.awaits.renew (fun a => ∃ m ≤ src.n, a.timerID = timerID m) (fun v v' hv hold => ?_) ha ⟨m, hm, hid⟩ id
    ⟨hsig.symm, s.n + 1, Nat.lt_succ_of_le h.n, hid'⟩
  obtain ⟨k, hk, hkid⟩ := hv.timer
  obtain ⟨k', hk', hkid'⟩ := hold
  have := timerID_inj (hkid.symm.trans hkid')
  omega

theorem Reforking.step (hs : src.Started) (hp : Promise fl src.n s ev) (hr : ev.data.Rekicks src s)
    (hev : 0 < s.events) (happ : s.apply x.quote fl ev = .ok s') :
    s'.status.terminal = true ∨ Reforking src (done ++ [ev]) s' := by
  have hbeg := hp.not_begins hev
  have hoffer := hp.offer
  obtain ⟨-, s₁, hs₁, rfl⟩ := State.apply_ok.1 happ
  unfold State.applyData at hs₁
  cases hd : ev.data with
  | failed d => rw [hd] at hs₁; cases hs₁; exact .inl rfl
  | update d =>
    rw [hd] at hs₁
    simp only [State.applyUpdate] at hs₁
    split at hs₁
    · cases hs₁
    · cases hs₁
      exact .inr (h.keep rfl rfl rfl h.timers le_rfl (by simp [Event.Above, hd]) (by simp [Event.Resends, hd]) rfl
        (by simp [Event.reschedules, hd]) (by simp [Event.rearms, hd]) (by simp [Event.restarts, hd]))
  | timer d =>
    rw [hd] at hs₁ hoffer
    cases hs₁
    have hlt : src.n < d.n := by
      have h1 : d.n = s.n + 1 := hoffer.1
      have := h.n
      omega
    refine .inr (h.keep rfl rfl rfl (fun id tm hget => ?_) (le_max_left _ _) (by simpa [Event.Above, hd] using hlt)
      (by simp [Event.Resends, hd]) rfl (by simp [Event.reschedules, hd]) (by simp [Event.rearms, hd]) (by simp [Event.restarts, hd]))
    rcases get_of_insert hget with ⟨-, rfl⟩ | ⟨-, hget⟩
    · exact hlt
    · exact h.timers id tm hget
  | await d => rw [hd] at hs₁ hr; cases hs₁; exact .inr (h.await hd hr)
  | scheduled d => rw [hd] at hs₁ hr hoffer; cases hs₁; exact .inr (h.scheduled hs hd hoffer.1 hr)
  | child d => rw [hd] at hs₁ hr hoffer; cases hs₁; exact .inr (h.child hs hd hoffer hr)
  | started d => rw [hd] at hbeg; cases hbeg
  | forked d => rw [hd] at hbeg; cases hbeg
  | _ => rw [hd] at hr; exact hr.elim

end

/-! ## The first decision of a fork -/

/-- The fork `s'` of `src` with `writes`, after its first decision `evs`. -/
structure Redispatched (x : Ext) (fl : Flow) (src : State) (writes : SMap Json) (evs : List Event) (s' : State) : Prop where
  task_keys : ∀ k : String, src.tasks[k]? = none → s'.tasks[k]? = none ∧ k ∉ evs.filterMap Event.reschedules
  interrupted : ∀ (k : String) (t : Task), src.tasks[k]? = some t → t.status = .interrupted →
    s'.tasks[k]? = some t ∧ k ∉ evs.filterMap Event.reschedules
  tasks : ∀ (k : String) (t : Task), src.tasks[k]? = some t → t.status ≠ .interrupted →
    (evs.filterMap Event.reschedules).count k = 1 ∧ ∃ t', s'.tasks[k]? = some t' ∧ t.Again src.n t'
  await_nodes : ∀ k : String, src.awaits[k]? = none → s'.awaits[k]? = none ∧ k ∉ evs.filterMap Event.rearms
  awaits : ∀ (k : String) (a : AwaitState), src.awaits[k]? = some a →
    (evs.filterMap Event.rearms).count k = 1 ∧ ∃ a', s'.awaits[k]? = some a' ∧ a.Again src.n a' ∧
      ∃ tm, s'.timers[a'.timerID]? = some tm ∧ tm.purpose = .await ∧ tm.node = k
  child_keys : ∀ k : String, src.children[k]? = none → s'.children[k]? = none ∧ k ∉ evs.filterMap Event.restarts
  children : ∀ (k : String) (ch : ChildState), src.children[k]? = some ch →
    (evs.filterMap Event.restarts).count k = 1 ∧ ∃ ch', s'.children[k]? = some ch' ∧ ch.Again src.n ch'
  numbers : ∀ ev ∈ evs, ev.Above src.n
  resends : ∀ ev ∈ evs, ev.Resends src
  backdrop : s'.backdrop = src.encoded.backdrop
  channels : State.reduceAll x.quote fl src.channels writes.toList = .ok s'.channels

section
variable {x : Ext} {fl : Flow} {src s s' : State} {evs : List Event}

/-- The first event of a fork brings the state of its source. -/
theorem Reforking.first {d : Event.Forked} {ev : Event} (hd : ev.data = .forked d) (hstate : d.state = src.marshal)
    (happ : s.apply x.quote fl ev = .ok s') : Reforking src [ev] s' := by
  obtain ⟨-, s₁, hs₁, rfl⟩ := State.apply_ok.1 happ
  simp only [State.applyData, hd, State.applyForked, hstate] at hs₁
  cases hs₁
  have h1 : [ev].filterMap Event.reschedules = [] := by simp [Event.reschedules, hd]
  have h2 : [ev].filterMap Event.rearms = [] := by simp [Event.rearms, hd]
  have h3 : [ev].filterMap Event.restarts = [] := by simp [Event.restarts, hd]
  exact
    { tasks := by rw [h1]; exact .refl _
      awaits := by rw [h2]; exact .refl _
      children := by rw [h3]; exact .refl _
      timers := fun id tm hget => by
        have hget : (∅ : SMap Timer)[id]? = some tm := hget
        rw [get_empty] at hget
        cases hget
      n := le_rfl
      above := fun e he => by
        rw [List.mem_singleton.1 he]
        simp [Event.Above, hd]
      resends := fun e he => by
        rw [List.mem_singleton.1 he]
        simp [Event.Resends, hd]
      backdrop := rfl }

theorem Reforking.path {G : State → Event → Prop} {done : List Event} (hs : src.Started)
    (hG : ∀ {s ev}, G s ev → Promise fl src.n s ev ∧ ev.data.Rekicks src s) (hev : 0 < s.events) (h : Reforking src done s)
    (hp : Path (State.apply x.quote fl) G s evs s') (hlive : s'.status.terminal = false) : Reforking src (done ++ evs) s' := by
  induction hp generalizing done with
  | nil s => simpa using h
  | @cons s s₁ s₂ ev evs guard ok rest ih =>
    have hev₁ : 0 < s₁.events := by
      obtain ⟨-, t, -, rfl⟩ := State.apply_ok.1 ok
      exact Nat.succ_pos _
    rcases h.step hs (hG guard).1 (hG guard).2 hev ok with hend | h₁
    · -- nothing is emitted after an end, so the fork would have ended
      cases rest with
      | nil => simp [hend] at hlive
      | cons guard' _ _ =>
        have hun := (hG guard').1.unended
        simp [hend] at hun
    · simpa using ih hev₁ h₁ hlive

theorem fork_reforking {base : Nat} (wf : WellFormed fl) (ha : s.Absent) (hsrc : Unfinished fl base src)
    (hr : src.work.Rested fl base) {source cmdID : String} {seq : Nat} {writes : SMap Json} {now : Time}
    (hok : (decideFork x fl s src source seq cmdID writes now).result = .ok evs)
    (hlive : (decideFork x fl s src source seq cmdID writes now).state.status.terminal = false) :
    Redispatched x fl src writes evs (decideFork x fl s src source seq cmdID writes now).state := by
  unfold decideFork at hok hlive ⊢
  rw [if_neg (by simp [ha.not_exists])] at hok hlive ⊢
  obtain ⟨hpromised, hset, hown⟩ :=
    Runs.decision (@forkProg_runs ⟨x, fl, now, cmdID⟩ s wf src base ha (.inr ⟨hsrc, hr⟩) source seq writes) hok
  obtain ⟨hrekicked, hchan⟩ :=
    Runs.decision (@forkProg_rekicks ⟨x, fl, now, cmdID⟩ src s base wf ha hsrc hr source seq writes) hok
  have hpath := hpromised.and hrekicked
  generalize (runDecision (forkProg ⟨x, fl, now, cmdID⟩ src source seq writes) s).state = s' at *
  obtain ⟨hu, hrest⟩ : Unfinished fl src.n s' ∧ s'.work.Rested fl src.n :=
    hset.resolve_left fun he => by simp [he.status] at hlive
  have h : Reforking src evs s' := by
    cases hpath with
    | nil =>
      have := hu.live.begun
      simp [ha.events] at this
    | @cons _ s₁ _ ev evs guard ok rest =>
      have hbeg := guard.1.begins.2 ha.events
      have hev : 0 < s₁.events := by
        obtain ⟨-, t, -, rfl⟩ := State.apply_ok.1 ok
        exact Nat.succ_pos _
      cases hd : ev.data with
      | forked d =>
        have hstate := guard.2
        rw [hd] at hstate
        exact Reforking.path hr.progress.started (fun hG => hG) hev (.first hd hstate ok) rest hlive
      | started d =>
        have hno := guard.2
        rw [hd] at hno
        exact hno.elim
      | _ => rw [hd] at hbeg; cases hbeg
  exact
    { task_keys := fun k => (h.tasks k).1
      interrupted := fun k t => h.tasks.skipped
      tasks := fun k t ht hst => h.tasks.all ht fun t' ht' he => by
        subst he
        have hlt := (hrest.tasks k t' ht' id).own hst
        have hle := (hsrc.sound.task ht).le
        exact absurd hlt (Nat.not_lt.2 hle)
      await_nodes := fun k => (h.awaits k).1
      awaits := fun k a hget => by
        obtain ⟨tm₀, htm₀, -⟩ := hr.awaits k a hget
        obtain ⟨-, hid₀, hle₀⟩ := hsrc.sound.timer htm₀
        obtain ⟨hc, a', ha', hagain⟩ := h.awaits.all hget fun a' ha' he => by
          subst he
          obtain ⟨tm, htm, -⟩ := hrest.awaits k a' ha'
          have hid := (hu.sound.timer htm).2.1
          have := timerID_inj (hid.symm.trans hid₀)
          have := h.timers _ tm htm
          have hle₀ : tm₀.n ≤ src.n := hle₀
          omega
        exact ⟨hc, a', ha', hagain, hrest.awaits k a' ha'⟩
      child_keys := fun k => (h.children k).1
      children := fun k ch hget => h.children.all hget fun ch' hch' he => by
        subst he
        obtain ⟨m, hm, hnum⟩ := hown hch'
        obtain ⟨m', hm', hnum'⟩ := hsrc.sound.child hget
        have := hnum.inj hnum'
        have hm' : m' ≤ src.n := hm'
        omega
      numbers := h.above
      resends := h.resends
      backdrop := h.backdrop
      channels := hchan.resolve_left fun he => by simp [he.status] at hlive }

end

/-- No result, consumed signal or output of an open map is absent. -/
def State.NoAbsent (s : State) : Prop :=
  (∀ k : String, s.results[k]? ≠ some none) ∧ (∀ k : String, s.signals[k]? ≠ some none) ∧
    ∀ (k : String) (m : MapRun), s.maps[k]? = some m → none ∉ m.outputs

theorem Raw.map_encoded_iff {m : SMap Raw} : (m.map fun _ r => some r.encoded) = m ↔ ∀ k : String, m[k]? ≠ some none := by
  constructor
  · intro h k hk
    have hget : (m.map fun _ r => some r.encoded)[k]? = m[k]? := by rw [h]
    rw [Std.ExtTreeMap.getElem?_map, hk] at hget
    cases hget
  · intro h
    apply Std.ExtTreeMap.ext_getElem?
    intro k
    rw [Std.ExtTreeMap.getElem?_map]
    cases hk : m[k]? with
    | none => rfl
    | some r =>
      cases r with
      | none => exact absurd hk (h k)
      | some j => rfl

theorem MapRun.encoded_iff {m : MapRun} : m.encoded = m ↔ none ∉ m.outputs := by
  have hmap : ∀ l : List Raw, (l.map fun r => some r.encoded) = l ↔ none ∉ l := by
    intro l
    induction l with
    | nil => simp
    | cons r l ih =>
      rw [List.map_cons, List.cons.injEq, ih]
      cases r <;> simp [Raw.encoded]
  rw [← hmap]
  constructor
  · exact fun h => congrArg MapRun.outputs h
  · intro h
    simp only [MapRun.encoded, h]

theorem State.encoded_backdrop_iff {s : State} : s.encoded.backdrop = s.backdrop ↔ s.NoAbsent := by
  have hmaps : (s.maps.map fun _ m => m.encoded) = s.maps ↔ ∀ (k : String) (m : MapRun), s.maps[k]? = some m → none ∉ m.outputs := by
    constructor
    · intro h k m hk
      have hget : (s.maps.map fun _ m => m.encoded)[k]? = s.maps[k]? := by rw [h]
      rw [Std.ExtTreeMap.getElem?_map, hk] at hget
      exact MapRun.encoded_iff.1 (Option.some.inj hget)
    · intro h
      apply Std.ExtTreeMap.ext_getElem?
      intro k
      rw [Std.ExtTreeMap.getElem?_map]
      cases hk : s.maps[k]? with
      | none => rfl
      | some m => exact congrArg some (MapRun.encoded_iff.2 (h k m hk))
  rw [State.NoAbsent, ← Raw.map_encoded_iff, ← Raw.map_encoded_iff, ← hmaps]
  constructor
  · exact fun h => ⟨congrArg Backdrop.results h, congrArg Backdrop.signals h, congrArg Backdrop.maps h⟩
  · rintro ⟨h1, h2, h3⟩
    simp only [State.backdrop, State.encoded, h1, h2, h3]

/-- **A fork dispatches again exactly what was in flight**, each thing once and under a fresh number; the rest of its state
is that of the source as it is written, which is the source's own unless a value in it is absent. -/
theorem fork_exact {x : Ext} {fl : Flow} (hv : validate x fl = []) {src : State} {log : List (List Event)}
    (hsrc : Reachable x fl src log) (hex : src.exists = true) (hopen : src.status.terminal = false) (execID source cmdID : String)
    (seq : Nat) (writes : SMap Json) (now : Time) {evs : List Event}
    (hok : ((Ask.fork src source seq cmdID writes).decide x fl (State.new execID) now).result = .ok evs)
    (hlive : ((Ask.fork src source seq cmdID writes).decide x fl (State.new execID) now).state.status.terminal = false) :
    Redispatched x fl src writes evs ((Ask.fork src source seq cmdID writes).decide x fl (State.new execID) now).state ∧
    (((Ask.fork src source seq cmdID writes).decide x fl (State.new execID) now).state.backdrop = src.backdrop ↔ src.NoAbsent) := by
  have wf := wellFormed_of_validate hv
  obtain ⟨base, hu, hr⟩ : ∃ base, Unfinished fl base src ∧ src.work.Rested fl base := by
    cases hsrc.tracked wf with
    | absent _ habs _ => simp [habs.not_exists] at hex
    | present hset _ _ => exact ⟨_, hset.resolve_left fun he => by simp [he.status] at hopen⟩
  have h := fork_reforking wf (State.absent_new execID) hu hr hok hlive
  refine ⟨h, ?_⟩
  rw [← State.encoded_backdrop_iff, ← h.backdrop]
  rfl

/-! The flow whose draft completed without an output, forked while it waits. -/

def forkedDraft : Outcome := (Ask.fork heldDraft.state "r1" 2 "fork-1" ∅).decide plainExt draftAndHold (State.new "r2") 3

theorem forkedDraft_redispatched :
    Redispatched plainExt draftAndHold heldDraft.state ∅ forkedDraft.events forkedDraft.state ∧
      (forkedDraft.state.backdrop = heldDraft.state.backdrop ↔ heldDraft.state.NoAbsent) := by
  have hok : forkedDraft.result.isOk = true := by decide +kernel
  exact fork_exact (by decide +kernel) heldDraft_reachable (by decide +kernel) (by decide +kernel) "r2" "r1" "fork-1" 2 ∅ 3
    (Outcome.result_events hok) (by decide +kernel)

/-- The result of the draft is absent in the source and `null` in the fork. -/
theorem fork_writes_null :
    validate plainExt draftAndHold = [] ∧
    Reachable plainExt draftAndHold heldDraft.state (record (record [] startedDraft.events) heldDraft.events) ∧
    heldDraft.state.status.terminal = false ∧ forkedDraft.result.isOk = true ∧ forkedDraft.state.status.terminal = false ∧
    (heldDraft.state.results["draft"]?).map Option.isSome = some false ∧
    (forkedDraft.state.results["draft"]?).map Option.isSome = some true :=
  ⟨by decide +kernel, heldDraft_reachable, by decide +kernel, by decide +kernel, by decide +kernel, by decide +kernel,
    by decide +kernel⟩

end Packtrail
