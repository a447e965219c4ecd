import Packtrail.Continuation
import Packtrail.Dispatch
import Packtrail.Trace

/-
# The dispatchers of an execution

`internal/dispatch/dispatch.go`: any number of dispatchers share the decisions of a partition. Each keeps a state of its
own in a cache and the state it last saw at the head of the log, and reads the rest from the log, its segments and its
snapshot. A decision may be delivered to several of them, more than once, and be given up half way.

| here | there |
| --- | --- |
| `stateBefore`             | `stateBefore` (`:276-320`) |
| `Head`, `Head.live`       | `head`, `head.live` (`:422-434`) |
| `headView`, `endedAtHead` | `headView`, `endedAtHead` (`:399-419`, `:438-450`) |
| `Hub.take`, `Hub.effect`, `Hub.finish` | `process`, `applyDecision` (`:176-232`), one event at a time |
| `Hub.acked`               | the decisions acknowledged (`handle`, `:108-162`) |
| `AckFloor`                | `dispatchedUpTo` (`internal/engine/engine.go:675-693`): an engine purges up to the ack floor |

`Hub` is the world of the engines with the dispatchers. The execution is not quarantined and reads are at the head of the log.

**`dispatcher_folds`**: whatever is in the caches, the state a decision is dispatched from is the fold of exactly the events
before it; not so once the id has been deleted and used again. **`no_attempt_lost`**: an attempt of an acknowledged decision
was handed out or answered from the result cache, or never is in flight. **`effects_before_purge`**: what a continuation purges
has had its effects run; an archive by hand purges what nobody has dispatched.
-/

namespace Packtrail

open Replay Transition

/-! ## One execution of an id -/

/-- The state an engine works on after a decision. -/
def Stage.holds : Stage → Option State
  | .after st | .segment st _ | .continuing st _ | .purge _ st => some st
  | _ => none

/-- A state of the past: the fold of a part of the history. -/
def Setup.Past (c : Setup) (hist : List Message) (st : State) : Prop := ∃ pre, pre <+: hist ∧ Folds c.x c.fl c.execID pre st

/-- No state or snapshot of an earlier execution of the same id is around. -/
structure World.Single (c : Setup) (w : World) : Prop where
  archived : w.Archived c
  snapshot : ∀ b, w.store.snapshot = some b → ∃ st, c.Past w.hist st ∧ b = st.marshal
  stage : ∀ i st, (w.engines i).stage.holds = some st → c.Past w.hist st

/-- What a step can do to the log. -/
inductive World.Logs (w w' : World) (act : Action) : Prop
  | same (hist : w'.hist = w.hist) (live : w'.store.live = w.store.live) (top : w'.top = w.top)
  | stored (m : Message) (hist : w'.hist = w.hist ++ [m]) (live : w'.store.live = w.store.live ++ [m]) (top : w'.top = m.seq)
  | purged (i floor seq : Nat) (hact : act = .purge i floor) (hist : w'.hist = w.hist)
      (live : w'.store.live = w.store.live.filter fun m => min seq (floor + 1) ≤ m.seq) (top : w'.top = w.top)

/-- What a step does: the log grows by at most one message, a snapshot is one of a state an engine holds, and only a decision or a
continuation that is stored gives an engine a new state to hold. -/
structure World.Does (w w' : World) (act : Action) : Prop where
  log : w.Logs w' act
  snapshot : ∀ b, w'.store.snapshot = some b → w.store.snapshot = some b ∨ ∃ i st, (w.engines i).stage.holds = some st ∧ b = st.marshal
  holds : ∀ i st, (w'.engines i).stage.holds = some st → (∃ j, (w.engines j).stage.holds = some st) ∨ ∃ m ∈ w'.hist, m.seq ≤ st.lastSeq

theorem Written.begun {x : Ext} {fl : Flow} {execID : String} {hist : List Message} {s : State} (wf : WellFormed fl)
    (hw : Written x fl execID hist) (hne : hist ≠ []) (hs : foldOf x fl execID hist = .ok s) : s.exists = true ∧ s.status ≠ .unset := by
  obtain ⟨b, s₀, hp, hset⟩ := hw.path wf
  cases hs.symm.trans hp.replay
  have hset := hset.resolve_left hne
  refine ⟨hset.exists, fun hunset => ?_⟩
  rcases hset with he | ⟨hu, -⟩
  · have := he.status
    rw [hunset] at this
    cases this
  · rcases hu.live.status with h | h <;> cases hunset.symm.trans h

section
variable {c : Setup} {w w' : World} {act : Action} {hist hist' : List Message} {st : State}

theorem Setup.Past.mono (h : c.Past hist st) (hpre : hist <+: hist') : c.Past hist' st := by
  obtain ⟨pre, hp, hf⟩ := h
  exact ⟨pre, hp.trans hpre, hf⟩

theorem World.Single.written (h : w.Single c) : Written c.x c.fl c.execID w.hist := h.archived.sound.written

theorem World.Single.shows (h : w.Single c) : Shows c.x c.fl c.execID w.hist w.store := by
  refine ⟨h.archived.sound.live, h.archived.objects, fun b hb => ?_⟩
  obtain ⟨st, ⟨pre, ⟨post, hpost⟩, sp, hsp, hm⟩, rfl⟩ := h.snapshot b hb
  exact ⟨pre, post, sp, hpost.symm, hsp, hm⟩

theorem Stage.Sound.kept {stage : Stage} {reuse : Prop} (h : stage.Sound c reuse w) (hst : stage.holds = some st) : Kept c w st := by
  cases stage with
  | after st' => cases hst; exact h
  | segment st' seg => cases hst; exact h
  | continuing st' sg => cases hst; exact h.1
  | purge seq st' => cases hst; exact h.1
  | _ => cases hst

theorem Engine.apply_holds {e : Engine} (hidle : e.stage = .idle) {σ : Store} {a : Ask} {now : Time} {trace : String} :
    (e.apply c σ a now trace).stage.holds = none := by
  unfold Engine.apply
  repeat' split
  all_goals first | rfl | rw [hidle]; rfl

theorem Setup.abortTooLarge_holds {σ : Store} {expected : Nat} {a : Ask} {trace : String} {evs : List Event} {now : Time} :
    (c.abortTooLarge σ expected a trace evs now).stage.holds = none := by
  unfold Setup.abortTooLarge
  split
  · rfl
  · simp only
    split <;> rfl

/-- One engine moves on. -/
theorem World.Does.of_set {u : World} {j : Nat} {e : Engine} (hlog : w.Logs (u.setEngine j e) act) (hsnap : u.store.snapshot = w.store.snapshot)
    (hu : u.engines = w.engines)
    (he : ∀ st, e.stage.holds = some st → (∃ j, (w.engines j).stage.holds = some st) ∨ ∃ m ∈ u.hist, m.seq ≤ st.lastSeq) :
    w.Does (u.setEngine j e) act := by
  refine ⟨hlog, fun b hb => .inl (hsnap ▸ hb), fun i st hst => ?_⟩
  by_cases hi : i = j
  · rw [show (u.setEngine j e).engines i = e from if_pos hi] at hst
    exact he st hst
  · rw [show (u.setEngine j e).engines i = u.engines i from if_neg hi, hu] at hst
    exact .inl ⟨i, hst⟩

theorem World.Does.of_rest {j : Nat} {e : Engine} (he : e.stage.holds = none) : w.Does (w.setEngine j e) act :=
  .of_set (.same rfl rfl rfl) rfl rfl fun st hst => by rw [he] at hst; cases hst

/-- The log stays and no engine holds another state. -/
theorem World.Does.aside (hhist : w'.hist = w.hist) (hlive : w'.store.live = w.store.live) (htop : w'.top = w.top)
    (he : ∀ i, (w'.engines i).stage = (w.engines i).stage) (hsnap : ∀ b, w'.store.snapshot = some b → w.store.snapshot = some b) :
    w.Does w' act :=
  ⟨.same hhist hlive htop, fun b hb => .inl (hsnap b hb), fun i _ hi => .inl ⟨i, he i ▸ hi⟩⟩

theorem World.step_does (hclear : w.clears act = false) (h : w.step c act = some w') : w.Does w' act := by
  cases act with
  | decide j σ a now trace =>
    simp only [World.step] at h
    split at h <;> cases h
    rename_i hidle
    exact .of_rest (Engine.apply_holds hidle)
  | reload j σ now =>
    simp only [World.step] at h
    split at h <;> cases h
    exact .of_rest Setup.abortTooLarge_holds
  | append j seq acked =>
    simp only [World.step, World.append] at h
    split at h
    · split at h
      · cases h
        exact .of_rest rfl
      · split at h <;> cases h
        refine .of_set (.stored _ rfl rfl rfl) rfl rfl (fun st he => ?_)
        cases acked <;> cases he
        exact .inr ⟨_, List.mem_append_right _ (List.mem_singleton_self _), le_refl seq⟩
    · cases h
  | refuse j =>
    simp only [World.step, World.refuse] at h
    split at h <;> cases h <;> exact .of_rest rfl
  | save j =>
    simp only [World.step, World.saveSnapshot] at h
    split at h <;> cases h
    all_goals
      rename_i hst
      exact ⟨.same rfl rfl rfl, fun b hb => .inr ⟨j, _, by rw [hst]; rfl, (Option.some.inj hb).symm⟩, fun i st hi => .inl ⟨i, hi⟩⟩
  | read j σ =>
    simp only [World.step, World.readSegment] at h
    split at h
    · rename_i hafter
      split at h <;> cases h
      · exact .of_rest rfl
      · exact .of_set (.same rfl rfl rfl) rfl rfl (fun st he => .inl ⟨j, by rw [hafter]; exact he⟩)
    · cases h
  | put j =>
    simp only [World.step, World.putSegment] at h
    split at h
    · rename_i hsegment
      obtain ⟨segment, -, rfl⟩ := Option.map_eq_some_iff.1 h
      exact .of_set (.same rfl rfl rfl) rfl rfl (fun st he => .inl ⟨j, by rw [hsegment]; exact he⟩)
    · cases h
  | continueAsNew j now seq acked =>
    simp only [World.step, World.continueAsNew] at h
    split at h
    · split at h
      · cases h; exact .of_rest rfl
      · cases h; exact .of_rest rfl
      · split at h <;> cases h
        refine .of_set (.stored _ rfl rfl rfl) rfl rfl (fun st he => ?_)
        cases acked <;> cases he
        exact .inr ⟨_, List.mem_append_right _ (List.mem_singleton_self _), le_refl seq⟩
    · cases h
  | purge j floor =>
    simp only [World.step, World.purge] at h
    split at h
    · rename_i seq st _
      cases h
      split
      · exact .of_rest rfl
      · exact .of_set (.purged j floor seq rfl rfl rfl rfl) rfl rfl (fun st he => by cases he)
    · cases h
  | rest j =>
    simp only [World.step, World.rest] at h
    split at h <;> cases h <;> exact .of_rest rfl
  | crash j =>
    cases h
    exact .of_rest rfl
  | archive j σ =>
    simp only [World.step] at h
    split at h
    · split at h <;> cases h <;> exact .aside rfl rfl rfl (fun _ => rfl) fun _ => id
    · cases h; exact .aside rfl rfl rfl (fun _ => rfl) fun _ => id
    · cases h
  | delete j σ now =>
    simp only [World.step] at h
    split at h
    · cases h
      refine .aside rfl rfl rfl (fun i => ?_) fun _ => id
      simp only [World.setOp, World.setEngine]
      split
      · rename_i hij; rw [hij]
      · rfl
    · cases h; exact .aside rfl rfl rfl (fun _ => rfl) fun _ => id
    · cases h
  | proceed j σ =>
    simp only [World.clears] at hclear
    simp only [World.step, World.proceed] at h
    split at h <;> rename_i hop <;> cases h <;> simp only [hop] at hclear
    · exact .aside rfl rfl rfl (fun _ => rfl) fun _ => id
    · cases hclear
    · exact .aside rfl rfl rfl (fun _ => rfl) fun _ hb => by cases hb
    · exact .aside rfl rfl rfl (fun _ => rfl) fun _ hb => by cases hb
    · exact .aside rfl rfl rfl (fun _ => rfl) fun _ => id
    · exact .aside rfl rfl rfl (fun _ => rfl) fun _ => id
    · cases hclear
  | abandon j => cases h; exact .aside rfl rfl rfl (fun _ => rfl) fun _ => id

theorem Retains.subset {live : List Message} (h : Retains hist live) : live ⊆ hist := by
  obtain ⟨k, rfl, -⟩ := h
  exact List.filter_subset_self _

theorem World.Does.grows (h : w.Does w' act) : w.hist <+: w'.hist := by
  cases h.log with
  | same hist live top => rw [hist]
  | stored m hist live top => rw [hist]; exact List.prefix_append _ _
  | purged i floor seq hact hist live top => rw [hist]

/-- What is not in the live log has been dealt with, if all that a purge takes has. -/
theorem World.Does.kept (h : w.Does w' act) {P : Message → Prop} (hkept : ∀ m ∈ w.hist, m ∈ w.store.live ∨ P m)
    (hfloor : ∀ i floor, act = .purge i floor → ∀ m ∈ w.hist, m.seq ≤ floor → P m) {m : Message} (hm : m ∈ w'.hist) :
    m ∈ w'.store.live ∨ P m := by
  cases h.log with
  | same hist live top =>
    rw [live]
    exact hkept m (hist ▸ hm)
  | stored m' hist live top =>
    rw [live]
    rcases List.mem_append.1 (hist ▸ hm) with hold | hnew
    · exact (hkept m hold).imp_left fun h => List.mem_append_left _ h
    · exact .inl (List.mem_append_right _ hnew)
  | purged i floor seq hact hist live top =>
    rw [hist] at hm
    by_cases hle : m.seq ≤ floor
    · exact .inr (hfloor i floor hact m hm hle)
    · refine (hkept m hm).imp_left fun hlive => ?_
      rw [live]
      refine List.mem_filter.2 ⟨hlive, ?_⟩
      simp only [decide_eq_true_eq]
      omega

theorem World.Current.step (wf : WellFormed c.fl) (h : w.Current c) (hclear : w.clears act = false)
    (hs : Step c World.Fresh w act w') : w'.Current c := by
  refine ⟨h.sound.step wf (fun σ hσ st hst => ⟨_, List.prefix_refl _, h.sound.reads_fresh wf hσ hst⟩) (h.reloads wf hs) False.elim
    (fun hf => by rw [hclear] at hf; cases hf) hs, ?_⟩
  cases (World.step_does hclear hs.next).log with
  | same hist live top => rw [top, hist, h.top]
  | stored m hist live top => rw [top, hist, headSeq_append]
  | purged i floor seq hact hist live top => rw [top, hist, h.top]

/-- **Every step leaves the id to one execution.** -/
theorem World.Single.step (wf : WellFormed c.fl) (h : w.Single c) (hfree : act.frees = false) (hput : PutsAtHead w act)
    (hs : Step c World.Fresh w act w') : w'.Single c := by
  have hdoes := World.step_does (World.not_clears hfree) hs.next
  have harchived := h.archived.step_fresh wf hfree hput hs
  refine ⟨harchived, fun b hb => ?_, fun i st hst => ?_⟩
  · rcases hdoes.snapshot b hb with hold | ⟨i, st, hst, rfl⟩
    · obtain ⟨st, hpast, rfl⟩ := h.snapshot b hold
      exact ⟨st, hpast.mono hdoes.grows, rfl⟩
    · exact ⟨st, (h.stage i st hst).mono hdoes.grows, rfl⟩
  · rcases hdoes.holds i st hst with ⟨j, hj⟩ | ⟨m, hm, hle⟩
    · exact (h.stage j st hj).mono hdoes.grows
    · have hkept := (harchived.sound.engine i).stage.kept hst
      exact hkept.fold.resolve_right fun hold => absurd (hold m hm) (Nat.not_lt.2 hle)

theorem World.Single.init (c : Setup) : World.Single c {} :=
  ⟨.init c, fun _ hb => (by cases hb), fun _ _ hst => (by cases hst)⟩

end

/-! ## The dispatchers -/

/-- The state at the head of the log, kept while a dispatcher catches up to it. -/
structure Head where
  seq : Nat
  st : State

/-- The attempt is the one in flight. -/
def State.inFlight (s : State) (a : Attempt) : Bool :=
  !s.status.terminal && (s.tasks[a.key]?).any fun t =>
    t.generation == a.generation && t.attempt == a.attempt && t.status == .scheduled

/-- The attempt a job is for. -/
def Event.Scheduled.run (s : Event.Scheduled) : Attempt := ⟨s.key, s.generation, s.attempt⟩

def Head.live (h : Head) (s : Event.Scheduled) : Bool := h.st.inFlight s.run

/-- `Log.LastSeq` -/
def Store.lastSeq (σ : Store) : Nat := (σ.live.getLast?.map Message.seq).getD 0

/-- A head that is behind `seq` is dropped. -/
def headView (h : Option Head) (seq : Nat) : Option Head := h.filter fun hv => seq ≤ hv.seq

section
variable (c : Setup)

/-- Whether the attempt has ended at the head of the log, and the head kept. -/
def endedAtHead (h : Option Head) (σ : Store) (seq : Nat) (s : Event.Scheduled) : Except LoadErr (Bool × Option Head) :=
  match headView h seq with
  | some hv => .ok (!hv.live s, some hv)
  | none =>
    if σ.lastSeq ≤ seq then .ok (false, none)
    else match σ.load c.x c.fl c.execID 0 with
      | .error e => .error e
      | .ok st => .ok (!st.inFlight s.run, some ⟨st.lastSeq, st⟩)

/-- The state just before `ev`, the first event of a decision. `none`: nothing is left of the execution. -/
def stateBefore (cache : Option State) (σ : Store) (ev : Event) : Except LoadErr (Option State) :=
  -- the cache is trusted when it is exactly one decision behind
  match cache.filter fun st => st.events + 1 == ev.index && st.lastSeq < ev.seq with
  | some st => .ok (some st)
  | none =>
    -- a continuation replaces the state with the one it carries
    if ev.data.isContinued then .ok (some (State.new c.execID))
    else if ev.index = 1 then .ok (if ev.data.begins then some (State.new c.execID) else none)
    else match σ.load c.x c.fl c.execID (ev.seq - 1) with
      | .error e => .error e
      | .ok st =>
        -- there is no definition exactly when there is no event
        if (readLog σ.live 1 0).isEmpty && !ev.data.begins then .ok none else .ok (some st)

end

/-- A decision a dispatcher is in the middle of. -/
structure Processing where
  msg : Message
  /-- The state folded so far. -/
  st : State
  /-- The events still to come. -/
  rest : List Event

/-- What a dispatcher has of the execution. -/
structure Desk where
  cache : Option State := none
  head : Option Head := none
  busy : Option Processing := none

structure Hub where
  world : World := {}
  desks : Nat → Desk := fun _ => {}
  /-- The events whose effects have run, with the effects. -/
  ran : List (Event × List Effect) := []
  acked : List Message := []

/-- Nothing is written yet; an earlier execution of the id may have left its states in the caches. -/
def Hub.fresh (caches : Nat → Option State) : Hub := { desks := fun i => { cache := caches i } }

inductive HubAction
  /-- An engine takes a step. -/
  | work (act : Action)
  /-- Dispatcher `i` is handed a decision and looks for the state before it. -/
  | take (i : Nat) (m : Message) (σ : Store)
  /-- It folds the next event and runs its effects; `cached` is what the result cache has for a job. -/
  | effect (i : Nat) (σ : Store) (cached : Option CacheEntry) (now : Time)
  /-- All effects have run. The decision is acknowledged once it is indexed. -/
  | finish (i : Nat) (indexed : Bool)
  /-- Something fails; the decision will be delivered again. -/
  | fail (i : Nat)
  /-- The cache, or the heads, make room for other executions. -/
  | evict (i : Nat)
  | forget (i : Nat)
  | crash (i : Nat)

namespace Hub

variable (c : Setup) (d : Dispatcher) (h : Hub)

def setDesk (i : Nat) (k : Desk) : Hub := { h with desks := fun j => if j = i then k else h.desks j }

/-- `process` up to the state before the decision. -/
def take (i : Nat) (m : Message) (σ : Store) : Option Hub :=
  match (h.desks i).busy, m.decode with
  | none, ev :: evs =>
    match stateBefore c (h.desks i).cache σ ev with
    | .error _ => some (h.setDesk i { h.desks i with cache := none })
    -- archived meanwhile: nothing left to do
    | .ok none => some { h with acked := m :: h.acked }
    -- the state is folded in place, so the cache has it again once all effects have run
    | .ok (some st) => some (h.setDesk i { h.desks i with cache := none, busy := some ⟨m, st, ev :: evs⟩ })
  | _, _ => none

/-- What the effect of `ev` reads, and the head kept: only a job looks at the head of the log. -/
def look (k : Desk) (σ : Store) (ev : Event) (cached : Option CacheEntry) (now : Time) : Except LoadErr (Look × Option Head) :=
  match ev.data with
  | .scheduled s => (endedAtHead c k.head σ ev.seq s).map fun eh => ({ ended := eh.1, cached, now }, eh.2)
  | _ => .ok ({ cached, now }, k.head)

/-- One round of the loop of `applyDecision`. -/
def effect (i : Nat) (σ : Store) (cached : Option CacheEntry) (now : Time) : Option Hub :=
  match (h.desks i).busy with
  | some ⟨m, st, ev :: rest⟩ =>
    match applySeq c.x c.fl st ev with
    | .error _ => some (h.setDesk i { h.desks i with busy := none })
    | .ok st' =>
      match look c (h.desks i) σ ev cached now with
      | .error _ => some (h.setDesk i { h.desks i with busy := none, head := none })
      | .ok (l, head) =>
        some { h.setDesk i { h.desks i with head, busy := some ⟨m, st', rest⟩ } with ran := (ev, d.effects l st' ev) :: h.ran }
  | _ => none

/-- The end of `applyDecision`: the state is cached before the index is written. -/
def finish (i : Nat) (indexed : Bool) : Option Hub :=
  match (h.desks i).busy with
  | some ⟨m, st, []⟩ =>
    some { h.setDesk i { h.desks i with cache := some st, busy := none } with acked := if indexed then m :: h.acked else h.acked }
  | _ => none

def step : HubAction → Option Hub
  | .work act => (h.world.step c act).map fun w => { h with world := w }
  | .take i m σ => h.take c i m σ
  | .effect i σ cached now => h.effect c d i σ cached now
  | .finish i indexed => h.finish i indexed
  | .fail i => some (h.setDesk i { h.desks i with cache := none, busy := none })
  | .evict i => some (h.setDesk i { h.desks i with cache := none })
  | .forget i => some (h.setDesk i { h.desks i with head := none })
  | .crash i => some (h.setDesk i {})

end Hub

def HubAction.view : HubAction → Option Store
  | .take _ _ σ | .effect _ σ _ _ => some σ
  | _ => none

/-- The engine knows `floor` as the ack floor of the dispatchers' consumer: everything up to it is acknowledged. -/
def AckFloor (h : Hub) : Action → Prop
  | .purge _ floor => ∀ m ∈ h.world.hist, m.seq ≤ floor → m ∈ h.acked
  | _ => True

/-- A step of the hub: the decisions delivered are those of the log, and reads are at its head. -/
structure HubStep (c : Setup) (d : Dispatcher) (h : Hub) (a : HubAction) (h' : Hub) : Prop where
  work : ∀ act, a = .work act → Step c World.Fresh h.world act h'.world ∧ AckFloor h act
  delivered : ∀ i m σ, a = .take i m σ → m ∈ h.world.hist
  view : ∀ σ, a.view = some σ → h.world.Fresh σ
  next : h.step c d a = some h'

/-- The log of the execution is purged whole. -/
def Hub.clears (h : Hub) : HubAction → Bool
  | .work act => h.world.clears act
  | _ => false

/-- The execution is neither archived nor deleted, and segments are written at the end of the log. -/
def HubOk (h : Hub) : HubAction → Prop
  | .work act => act.frees = false ∧ PutsAtHead h.world act
  | _ => True

theorem HubOk.not_clears {h : Hub} {a : HubAction} (hok : HubOk h a) : h.clears a = false := by
  cases a with
  | work act => exact World.not_clears hok.1
  | _ => rfl

/-! ## Attempts that have ended stay so -/

section
variable {x : Ext} {fl : Flow} {execID : String} {base : Nat} {l : List Event} {s t : State} {ev : Event}

theorem Path.loggedSeq (hp : Path (applySeq x fl) (Stored fl base) (State.new execID) l s) : Logged fl base l s := by
  have hall := hp.logInvariant (I := Logged fl base) (fun l s ev s' h guard ok => ?_) (Logged.new fl base execID)
  · simpa using hall
  · obtain ⟨u, hu, rfl⟩ := applySeq_ok.1 ok
    have hlogged := h.step guard.promise hu
    exact ⟨hlogged.events, hlogged.sound, hlogged.traced, hlogged.pending⟩

variable {a : Attempt}

theorem State.inFlight_iff : s.inFlight a = true ↔ s.status.terminal = false ∧
    ∃ t, s.tasks[a.key]? = some t ∧ t.generation = a.generation ∧ t.attempt = a.attempt ∧ t.status = .scheduled := by
  unfold State.inFlight
  cases hs : s.status.terminal <;> cases ht : s.tasks[a.key]? <;> simp [and_assoc]

/-- An attempt is in flight after an event that is not the first one only if it was before, or the event schedules it. -/
theorem Stored.inFlight (guard : Stored fl base s ev) (hs : s.events ≠ 0) (ok : applySeq x fl s ev = .ok t)
    (ha : t.inFlight a = true) : s.inFlight a = true ∨ ev.schedules = some a := by
  obtain ⟨u, hu, rfl⟩ := applySeq_ok.1 ok
  have hp := guard.promise
  have hb : ev.data.begins = false := by
    cases hbegins : ev.data.begins
    · rfl
    · exact absurd (hp.begins.1 hbegins) hs
  obtain ⟨hun, task, htask, hg, hatt, hst⟩ := State.inFlight_iff.1 ha
  have htask : (s.work.step ev.data).tasks[a.key]? = some task := by
    rw [← State.apply_work hu]
    exact htask
  cases task_step hp.offer hb htask with
  | kept hold => exact .inl (State.inFlight_iff.2 ⟨hp.unended, task, hold, hg, hatt, hst⟩)
  | scheduled d hd hk ht =>
    refine .inr ?_
    subst ht
    simp only [Event.schedules, hd, hk]
    exact congrArg some (congrArg₂ (Attempt.mk a.key) hg hatt)
  | retrying d t₀ hd hr hk hold ht =>
    subst ht
    cases hst
  | interrupted d t₀ hd hk hold ht =>
    subst ht
    cases hst

end

/-! ## The state before a decision -/

section
variable {c : Setup} {w : World} {pre post : List Message} {m : Message} {ev : Event} {evs : List Event}

theorem eventsOf_mono {hist : List Message} (h : pre <+: hist) : eventsOf pre <+: eventsOf hist := by
  obtain ⟨post, rfl⟩ := h
  rw [eventsOf_append]
  exact List.prefix_append _ _

variable {st : State}

variable (wf : WellFormed c.fl)

include wf

theorem Folds.events {hist : List Message} (hw : Written c.x c.fl c.execID hist)
    (h : Folds c.x c.fl c.execID hist st) : st.events = (eventsOf hist).length := by
  obtain ⟨s, hs, hm⟩ := h
  obtain ⟨b, s₀, hp, -⟩ := hw.path wf
  cases hs.symm.trans hp.replay
  have henc : st.encoded = s.encoded := congrArg Encoding.decoded hm
  have hevents : st.events = s.events := show st.encoded.events = s.encoded.events by rw [henc]
  rw [hevents, (Path.chronicle hp).count]

/-- A decision in its history: its first event follows the fold of what came before. -/
theorem Written.at_decision (hw : Written c.x c.fl c.execID (pre ++ m :: post)) (hdec : m.decode = ev :: evs) :
    ∃ b s₀, foldOf c.x c.fl c.execID pre = .ok s₀ ∧ Stored c.fl b s₀ ev ∧ ev.index = (eventsOf pre).length + 1 ∧
    s₀.events = (eventsOf pre).length := by
  obtain ⟨b, s, hp, -⟩ := hw.path wf
  have hevents : eventsOf (pre ++ m :: post) = eventsOf pre ++ (ev :: (evs ++ eventsOf post)) := by
    rw [eventsOf_append, List.append_cancel_left_eq]
    show m.decode ++ eventsOf post = _
    rw [hdec]
    rfl
  rw [hevents] at hp
  obtain ⟨s₀, hpre, hrest⟩ := hp.split
  have hcount := (Path.chronicle hpre).count
  cases hrest with
  | cons guard _ _ =>
    refine ⟨b, s₀, hpre.replay, guard, ?_, hcount⟩
    rw [guard.promise.index, hcount]

/-- The sequences of a history, seen from one of its decisions. -/
theorem Written.around (hw : Written c.x c.fl c.execID (pre ++ m :: post)) :
    (∀ m' ∈ pre, 0 < m'.seq ∧ m'.seq < m.seq) ∧ ∀ m' ∈ m :: post, m.seq ≤ m'.seq := by
  obtain ⟨hsorted, hpos⟩ := hw.sorted wf
  obtain ⟨-, hcons, hcross⟩ := List.pairwise_append.1 hsorted
  refine ⟨fun m' hm' => ⟨(hpos m' (List.mem_append_left _ hm')).1, hcross m' hm' m List.mem_cons_self⟩, fun m' hm' => ?_⟩
  rcases List.mem_cons.1 hm' with rfl | hm'
  · exact le_rfl
  · exact ((List.pairwise_cons.1 hcons).1 m' hm').le

/-- The events read up to the sequence before a decision are those before it. -/
theorem Written.within_before (hw : Written c.x c.fl c.execID (pre ++ m :: post)) (hpre : eventsOf pre ≠ []) :
    ((eventsOf (pre ++ m :: post)).filter fun ev => within (m.seq - 1) ev.seq) = eventsOf pre := by
  obtain ⟨hbefore, hafter⟩ := hw.around wf
  have hkeep : ∀ ev ∈ eventsOf pre, 0 < ev.seq ∧ ev.seq < m.seq := by
    intro ev hev
    obtain ⟨m', hm', hev⟩ := List.mem_flatMap.1 hev
    rw [m'.decode_seq ev hev]
    exact hbefore m' hm'
  obtain ⟨first, rest, hfirst⟩ := List.exists_cons_of_ne_nil hpre
  have htwo := hkeep first (by rw [hfirst]; exact List.mem_cons_self)
  rw [eventsOf_append, List.filter_append, List.filter_eq_self.2 fun ev hev => ?_, List.filter_eq_nil_iff.2 fun ev hev => ?_, List.append_nil]
  · obtain ⟨m', hm', hev⟩ := List.mem_flatMap.1 hev
    have := hafter m' hm'
    rw [m'.decode_seq ev hev]
    simp only [within, Bool.or_eq_true, decide_eq_true_eq]
    omega
  · have := hkeep ev hev
    simp only [within, Bool.or_eq_true, decide_eq_true_eq]
    omega

theorem World.Sound.live_read {reuse : Prop} (h : w.Sound c reuse) (hne : w.hist ≠ []) :
    (readLog w.store.live 1 0).isEmpty = false := by
  obtain ⟨b, s, hp, -⟩ := h.written.path wf
  have hc := Path.chronicle hp
  rw [h.live.read_all hc]
  simpa using h.live.live_ne hc (h.written.begun wf hne hp.replay).1

/-- Something is left of an execution as long as it has a log. -/
theorem World.Current.stateBefore_ne (h : w.Current c) (hhist : w.hist = pre ++ m :: post) (hdec : m.decode = ev :: evs)
    (cache : Option State) : stateBefore c cache w.store ev ≠ .ok none := by
  have hw := h.sound.written
  rw [hhist] at hw
  obtain ⟨b, s₀, -, guard, hindex, hcount⟩ := hw.at_decision wf hdec
  have hlive := h.sound.live_read wf (by rw [hhist]; simp)
  unfold Packtrail.stateBefore
  split
  · simp
  · split
    · simp
    · split
      · have hbegins : ev.data.begins = true := guard.promise.begins.2 (by omega)
        simp [hbegins]
      · split <;> simp [hlive]

/-- **The state before a decision** is the fold of what came before it, whatever fold the cache has; before a continuation it
may be the empty one. -/
theorem World.Single.stateBefore (h : w.Single c) (hhist : w.hist = pre ++ m :: post) (hdec : m.decode = ev :: evs)
    {cache : Option State} (hcache : ∀ st, cache = some st → c.Past w.hist st) :
    ∃ st, stateBefore c cache w.store ev = .ok (some st) ∧
    (ev.data.isContinued = true ∧ st = State.new c.execID ∨ Folds c.x c.fl c.execID pre st) := by
  have hw := h.written
  rw [hhist] at hw
  obtain ⟨b, s₀, hs₀, guard, hindex, hcount⟩ := hw.at_decision wf hdec
  unfold Packtrail.stateBefore
  cases hfilter : cache.filter fun st => st.events + 1 == ev.index && st.lastSeq < ev.seq with
  | some st =>
    obtain ⟨hst, htrust⟩ := Option.filter_eq_some_iff.1 hfilter
    obtain ⟨p, hp, hf⟩ := hcache st hst
    refine ⟨st, rfl, .inr ?_⟩
    -- prefixes with the same number of events have the same events
    have hlen : (eventsOf p).length = (eventsOf pre).length := by
      have := hf.events wf (h.written.of_prefix hp)
      simp only [Bool.and_eq_true, beq_iff_eq, decide_eq_true_eq] at htrust
      omega
    have hsame : eventsOf p = eventsOf pre := by
      have hpre : eventsOf pre <+: eventsOf w.hist := eventsOf_mono (by rw [hhist]; exact List.prefix_append _ _)
      exact (List.prefix_of_prefix_length_le (eventsOf_mono hp) hpre hlen.le).eq_of_length hlen
    obtain ⟨s, hs, hm⟩ := hf
    refine ⟨s, ?_, hm⟩
    unfold foldOf at hs ⊢
    rwa [← hsame]
  | none =>
    simp only
    by_cases hcont : ev.data.isContinued = true
    · simp only [hcont, if_true]
      exact ⟨_, rfl, .inl ⟨trivial, rfl⟩⟩
    · simp only [hcont, Bool.false_eq_true, if_false]
      by_cases hone : ev.index = 1
      · have hnil : eventsOf pre = [] := List.eq_nil_of_length_eq_zero (by omega)
        have hbegins : ev.data.begins = true := guard.promise.begins.2 (by rw [hcount, hnil]; rfl)
        simp only [hone, hbegins, if_true]
        refine ⟨_, rfl, .inr ⟨State.new c.execID, ?_, rfl⟩⟩
        unfold foldOf
        rw [hnil]
        rfl
      · simp only [hone, if_false]
        have hne : eventsOf pre ≠ [] := fun hnil => hone (by rw [hindex, hnil]; rfl)
        obtain ⟨s, t, hs, hload, hm, -⟩ := h.shows.load wf h.written (ev.seq - 1)
        have hseq : ev.seq = m.seq := m.decode_seq ev (by rw [hdec]; exact List.mem_cons_self)
        rw [hhist, hseq, hw.within_before wf hne] at hs
        have hlive := h.archived.sound.live_read wf (by rw [hhist]; simp)
        simp only [hload, hlive, Bool.false_and, Bool.false_eq_true, if_false]
        exact ⟨t, rfl, .inr ⟨s, hs, hm⟩⟩

omit wf

/-- The state of a dispatcher that has folded `done` of a decision that follows `pre`. Before a continuation it may be empty. -/
def Stands (c : Setup) (pre : List Message) (m : Message) (done : List Event) (st : State) : Prop :=
  (done = [] ∧ st = State.new c.execID ∧ ∃ ev evs, m.decode = ev :: evs ∧ ev.data.isContinued = true) ∨
    ∃ s, replay (applySeq c.x c.fl) (State.new c.execID) (eventsOf pre ++ done) = .ok s ∧ st.marshal = s.marshal

/-- A continuation is applied to any state alike. -/
theorem applySeq_continued {x : Ext} {fl : Flow} {d : Event.Continued} (hd : ev.data = .continued d) (s s' : State) :
    applySeq x fl s ev = applySeq x fl s' ev := by
  unfold applySeq State.apply State.expectedIndex State.applyData
  simp only [hd]

theorem Stands.step (wf : WellFormed c.fl) (hw : Written c.x c.fl c.execID (pre ++ m :: post)) {done rest : List Event}
    (h : Stands c pre m done st) (hdec : m.decode = done ++ ev :: rest) :
    ∃ st', applySeq c.x c.fl st ev = .ok st' ∧ Stands c pre m (done ++ [ev]) st' := by
  obtain ⟨b, send, hp, -⟩ := hw.path wf
  have hevents : eventsOf (pre ++ m :: post) = (eventsOf pre ++ done ++ [ev]) ++ (rest ++ eventsOf post) := by
    rw [eventsOf_append]
    show eventsOf pre ++ (m.decode ++ eventsOf post) = _
    rw [hdec]
    simp
  rw [hevents] at hp
  obtain ⟨t, ht, -⟩ := hp.split
  have hfold := ht.replay
  obtain ⟨s, hs, hlast⟩ := ht.split
  cases hlast with
  | cons guard ok rest' =>
    obtain rfl := rest'.eq_of_nil
    rcases h with ⟨rfl, rfl, first, more, hfirst, hcont⟩ | ⟨s', hs', hm⟩
    · obtain ⟨rfl, -⟩ := List.cons.inj ((List.nil_append _ ▸ hdec).symm.trans hfirst)
      cases hd : ev.data <;> rw [hd] at hcont <;> first | cases hcont; done | skip
      rename_i d
      refine ⟨t, (applySeq_continued hd _ s).trans ok, .inr ⟨t, ?_, rfl⟩⟩
      rw [← List.append_assoc]
      exact hfold
    · cases hs.replay.symm.trans hs'
      obtain ⟨t', ht', hmt⟩ := marshal_applySeq hm.symm ok
      refine ⟨t', ht', .inr ⟨t, ?_, hmt.symm⟩⟩
      rw [← List.append_assoc]
      exact hfold

/-- A decision folded to its end. -/
theorem Stands.finish (h : Stands c pre m m.decode st) : Folds c.x c.fl c.execID (pre ++ [m]) st := by
  rcases h with ⟨hnil, -, ev, evs, hdec, -⟩ | ⟨s, hs, hm⟩
  · rw [hdec] at hnil
    cases hnil
  · refine ⟨s, ?_, hm⟩
    unfold foldOf
    rw [eventsOf_append, eventsOf_singleton]
    exact hs

/-- Folding a whole decision from the state before it. -/
theorem Stands.replay (wf : WellFormed c.fl) (hw : Written c.x c.fl c.execID (pre ++ m :: post)) {rest done : List Event}
    (h : Stands c pre m done st) (hdec : m.decode = done ++ rest) :
    ∃ t, Replay.replay (applySeq c.x c.fl) st rest = .ok t ∧ Folds c.x c.fl c.execID (pre ++ [m]) t := by
  induction rest generalizing done st with
  | nil =>
    refine ⟨st, rfl, Stands.finish ?_⟩
    rw [hdec, List.append_nil]
    exact h
  | cons ev rest ih =>
    obtain ⟨st', hst', hstands⟩ := h.step wf hw hdec
    obtain ⟨t, ht, hf⟩ := ih hstands (by rw [hdec]; simp)
    refine ⟨t, ?_, hf⟩
    simp only [Replay.replay, hst']
    exact ht

theorem Stands.begin (hdec : m.decode = ev :: evs)
    (h : ev.data.isContinued = true ∧ st = State.new c.execID ∨ Folds c.x c.fl c.execID pre st) : Stands c pre m [] st := by
  rcases h with ⟨hcont, rfl⟩ | ⟨s, hs, hm⟩
  · exact .inl ⟨rfl, rfl, ev, evs, hdec, hcont⟩
  · refine .inr ⟨s, ?_, hm⟩
    rw [List.append_nil]
    exact hs

end

/-! ## What the dispatchers keep -/

/-- A job for the attempt was published, or the attempt was answered from the result cache. -/
def HandedOut (es : List Effect) (a : Attempt) : Prop :=
  ∃ j : Job, j.key = a.key ∧ j.generation = a.generation ∧ j.attempt = a.attempt ∧
    (.job j ∈ es ∨ ∃ ce, Dispatcher.answer j ce ∈ es)

/-- The attempt was not in flight at some time after the event. -/
def EndedAfter (c : Setup) (hist : List Message) (ev : Event) (a : Attempt) : Prop :=
  ∃ p st, p <+: hist ∧ ev ∈ eventsOf p ∧ foldOf c.x c.fl c.execID p = .ok st ∧ st.inFlight a = false

/-- The effects of an event have run; an attempt it schedules was handed out, or was found to have ended. -/
def Handled (c : Setup) (hist : List Message) (ran : List (Event × List Effect)) (ev : Event) : Prop :=
  ∃ es, (ev, es) ∈ ran ∧ ∀ s, ev.data = .scheduled s → HandedOut es s.run ∨ EndedAfter c hist ev s.run

/-- The decision is one of the history, and what has been folded of it is handled. -/
def Processing.Fits (c : Setup) (exact : Prop) (hist : List Message) (ran : List (Event × List Effect)) (del : Processing) : Prop :=
  ∃ pre post done, hist = pre ++ del.msg :: post ∧ del.msg.decode = done ++ del.rest ∧ (exact → Stands c pre del.msg done del.st) ∧
    ∀ ev ∈ done, Handled c hist ran ev

def Head.Fits (c : Setup) (hist : List Message) (hv : Head) : Prop := hv.seq = hv.st.lastSeq ∧ c.Past hist hv.st

/-- **What every run keeps**; the states of the dispatchers are exact where `HubOk` holds. -/
structure Hub.Sound (c : Setup) (d : Dispatcher) (exact : Prop) (h : Hub) : Prop where
  current : h.world.Current c
  head : ∀ i hv, (h.desks i).head = some hv → hv.Fits c h.world.hist
  busy : ∀ i del, (h.desks i).busy = some del → del.Fits c exact h.world.hist h.ran
  acked : ∀ m ∈ h.acked, m ∈ h.world.hist ∧ ∀ ev ∈ m.decode, Handled c h.world.hist h.ran ev
  purged : ∀ m ∈ h.world.hist, m ∈ h.world.store.live ∨ m ∈ h.acked
  ran : ∀ ev es, (ev, es) ∈ h.ran → ∃ l st, es = d.effects l st ev
  single : exact → h.world.Single c
  cache : exact → ∀ i st, (h.desks i).cache = some st → c.Past h.world.hist st

section
variable {c : Setup} {d : Dispatcher} {exact : Prop} {h h' : Hub} {hist hist' : List Message} {ran ran' : List (Event × List Effect)}

variable {ev : Event} {s : Event.Scheduled} {st : State} {m : Message} {i : Nat}

theorem EndedAfter.mono {a : Attempt} (h : EndedAfter c hist ev a) (hhist : hist <+: hist') : EndedAfter c hist' ev a := by
  obtain ⟨p, st, hp, hrest⟩ := h
  exact ⟨p, st, hp.trans hhist, hrest⟩

theorem Handled.mono (h : Handled c hist ran ev) (hhist : hist <+: hist') (hran : ∀ x ∈ ran, x ∈ ran') :
    Handled c hist' ran' ev := by
  obtain ⟨es, hes, hall⟩ := h
  exact ⟨es, hran _ hes, fun s hs => (hall s hs).imp_right fun hended => hended.mono hhist⟩

theorem Processing.Fits.mono {del : Processing} (h : del.Fits c exact hist ran) (hhist : hist <+: hist') (hran : ∀ x ∈ ran, x ∈ ran') :
    del.Fits c exact hist' ran' := by
  obtain ⟨pre, post, done, heq, hdec, hst, hall⟩ := h
  obtain ⟨more, rfl⟩ := hhist
  exact ⟨pre, post ++ more, done, by rw [heq]; simp, hdec, hst, fun ev hev => (hall ev hev).mono (List.prefix_append _ _) hran⟩

/-- The task of an event that was just applied. -/
theorem applySeq_task {x : Ext} {fl : Flow} (hd : ev.data = .scheduled s) {st' : State}
    (ha : applySeq x fl st ev = .ok st') :
    ∃ t, st'.tasks[s.key]? = some t ∧ t.generation = s.generation ∧ t.attempt = s.attempt := by
  obtain ⟨u, hu, rfl⟩ := applySeq_ok.1 ha
  have hwork := State.apply_work hu
  rw [hd] at hwork
  refine ⟨st.work.taskOf s, ?_, rfl, rfl⟩
  show u.work.tasks[s.key]? = _
  rw [hwork]
  exact Std.ExtTreeMap.getElem?_insert_self

/-- A job that was not found to have ended is handed out. -/
theorem Dispatcher.job_handed {l : Look} {t : Task} {n : Node} (hl : l.ended = false)
    (ht : st.tasks[s.key]? = some t) (hg : t.generation = s.generation) (ha : t.attempt = s.attempt) (hn : d.fl.node s.node = some n) :
    HandedOut (d.job l st ev s) s.run := by
  have hsame : ¬(t.generation ≠ s.generation ∨ t.attempt ≠ s.attempt) := by simp [hg, ha]
  refine ⟨d.jobOf st ev s n t, rfl, rfl, rfl, ?_⟩
  unfold Dispatcher.job
  simp only [ht, hsame, hl, hn, if_false, Bool.false_eq_true]
  cases l.cached with
  | none => exact .inl (List.mem_singleton_self _)
  | some ce =>
    simp only
    split
    · exact .inr ⟨ce, List.mem_singleton_self _⟩
    · exact .inl (List.mem_singleton_self _)

/-- Every node a history schedules is one of the flow. -/
theorem Written.schedules_known (wf : WellFormed c.fl) {hist : List Message} (hw : Written c.x c.fl c.execID hist)
    (hev : ev ∈ eventsOf hist) (hd : ev.data = .scheduled s) : ∃ n, c.fl.node s.node = some n := by
  obtain ⟨b, st, hp, -⟩ := hw.path wf
  obtain ⟨n, hn, -⟩ := (Path.loggedSeq hp).traced.limit ev hev s hd
  exact ⟨n, hn⟩

theorem Folds.inFlight {hist : List Message} (hf : Folds c.x c.fl c.execID hist st) :
    ∃ s, foldOf c.x c.fl c.execID hist = .ok s ∧ ∀ a, s.inFlight a = st.inFlight a := by
  obtain ⟨s, hs, hm⟩ := hf
  have henc : st.encoded = s.encoded := congrArg Encoding.decoded hm
  have hstatus : st.status = s.status := show st.encoded.status = s.encoded.status by rw [henc]
  have htasks : st.tasks = s.tasks := show st.encoded.tasks = s.encoded.tasks by rw [henc]
  refine ⟨s, hs, fun a => ?_⟩
  unfold State.inFlight
  rw [hstatus, htasks]

/-- A part of the history that reaches the sequence of a decision has its events. -/
theorem Written.mem_of_seq (wf : WellFormed c.fl) {hist p : List Message} (hw : Written c.x c.fl c.execID hist) (hp : p <+: hist)
    (hm : m ∈ hist) (hle : m.seq ≤ headSeq p) : m ∈ p := by
  obtain ⟨post, rfl⟩ := hp
  rcases List.mem_append.1 hm with hold | hnew
  · exact hold
  · obtain ⟨hsorted, hpos⟩ := hw.sorted wf
    have hzero := (hpos m hm).1
    rcases List.eq_nil_or_concat p with rfl | ⟨q, m', rfl⟩
    · simp [headSeq] at hle
      omega
    · have hlt := (List.pairwise_append.1 hsorted).2.2 m' (by simp) m hnew
      simp [headSeq] at hle
      omega

theorem Written.eq_of_seq (wf : WellFormed c.fl) {hist : List Message} (hw : Written c.x c.fl c.execID hist) {m' : Message}
    (hm : m ∈ hist) (hm' : m' ∈ hist) (h : m.seq = m'.seq) : m = m' := by
  have hnodup : (hist.map Message.seq).Nodup := List.pairwise_map.2 ((hw.sorted wf).1.imp fun hlt => Nat.ne_of_lt hlt)
  exact List.inj_on_of_nodup_map hnodup hm hm' h

theorem Written.decode_ne {pre post : List Message} (hw : Written c.x c.fl c.execID (pre ++ m :: post)) : m.decode ≠ [] := by
  rw [List.append_cons] at hw
  have hw := hw.of_prefix (List.prefix_append _ _)
  generalize hl : pre ++ [m] = l at hw
  cases hw with
  | nil => simp at hl
  | append hw hs hm req now hsrc hseg hok hne hseq trace =>
    obtain ⟨rfl, hmsg⟩ := List.append_inj' hl rfl
    cases hmsg
    exact markEnd_ne_nil (by simpa using hne)

variable (hs : h.Sound c d exact)

include hs

theorem Hub.Sound.setDesk {k : Desk} (hcache : exact → ∀ st, k.cache = some st → c.Past h.world.hist st)
    (hhead : ∀ hv, k.head = some hv → hv.Fits c h.world.hist) (hbusy : ∀ del, k.busy = some del → del.Fits c exact h.world.hist h.ran) :
    (h.setDesk i k).Sound c d exact := by
  have hdesk : ∀ j, (h.setDesk i k).desks j = if j = i then k else h.desks j := fun j => rfl
  refine ⟨hs.current, fun j hv => ?_, fun j del => ?_, hs.acked, hs.purged, hs.ran, hs.single, fun hexact j st => ?_⟩ <;> rw [hdesk j] <;> split
  · exact hhead hv
  · exact hs.head j hv
  · exact hbusy del
  · exact hs.busy j del
  · exact hcache hexact st
  · exact hs.cache hexact j st

/-- More effects have run. -/
theorem Hub.Sound.run (ev : Event) (l : Look) (st : State) :
    ({ h with ran := (ev, d.effects l st ev) :: h.ran } : Hub).Sound c d exact := by
  have hran : ∀ y ∈ h.ran, y ∈ (ev, d.effects l st ev) :: h.ran := fun y hy => List.mem_cons_of_mem _ hy
  refine ⟨hs.current, hs.head, fun i del hdel => (hs.busy i del hdel).mono List.prefix_rfl hran, fun m hm => ?_, hs.purged,
    fun e es he => ?_, hs.single, hs.cache⟩
  · obtain ⟨hmem, hall⟩ := hs.acked m hm
    exact ⟨hmem, fun ev hev => (hall ev hev).mono List.prefix_rfl hran⟩
  · rcases List.mem_cons.1 he with he | hold
    · cases he
      exact ⟨l, st, rfl⟩
    · exact hs.ran e es hold

/-- A decision is acknowledged. -/
theorem Hub.Sound.ack (hm : m ∈ h.world.hist) (hall : ∀ ev ∈ m.decode, Handled c h.world.hist h.ran ev) :
    ({ h with acked := m :: h.acked } : Hub).Sound c d exact := by
  refine ⟨hs.current, hs.head, hs.busy, fun m' hm' => ?_, fun m' hm' => ?_, hs.ran, hs.single, hs.cache⟩
  · rcases List.mem_cons.1 hm' with rfl | hm'
    · exact ⟨hm, hall⟩
    · exact hs.acked m' hm'
  · exact (hs.purged m' hm').imp_right fun h => List.mem_cons_of_mem _ h

/-- **A step of an engine.** What it purges was acknowledged. -/
theorem Hub.Sound.work (wf : WellFormed c.fl) {act : Action} {w : World} (hclear : h.world.clears act = false)
    (hok : exact → HubOk h (.work act)) (hstep : Step c World.Fresh h.world act w) (hfloor : AckFloor h act) :
    ({ h with world := w } : Hub).Sound c d exact := by
  have hdoes := World.step_does hclear hstep.next
  have hpre := hdoes.grows
  refine ⟨hs.current.step wf hclear hstep, fun i hv hhv => ⟨(hs.head i hv hhv).1, (hs.head i hv hhv).2.mono hpre⟩,
    fun i del hdel => (hs.busy i del hdel).mono hpre fun _ hy => hy, fun m hm => ?_, fun m hm => ?_, hs.ran,
    fun hexact => (hs.single hexact).step wf (hok hexact).1 (hok hexact).2 hstep,
    fun hexact i st hst => (hs.cache hexact i st hst).mono hpre⟩
  · obtain ⟨hmem, hall⟩ := hs.acked m hm
    exact ⟨hpre.subset hmem, fun ev hev => (hall ev hev).mono hpre fun _ hy => hy⟩
  · refine hdoes.kept hs.purged (fun i floor hact => ?_) hm
    subst hact
    exact hfloor

theorem Hub.Sound.take (wf : WellFormed c.fl) {σ : Store} (hm : m ∈ h.world.hist)
    (hσ : h.world.Fresh σ) (hn : h.take c i m σ = some h') : h'.Sound c d exact := by
  rw [show σ = h.world.store from hσ] at hn
  obtain ⟨pre, post, hhist⟩ := List.append_of_mem hm
  unfold Hub.take at hn
  split at hn
  · rename_i ev evs hbusy hdec
    split at hn
    · cases hn
      exact hs.setDesk (fun _ _ he => by cases he) (hs.head i) (hs.busy i)
    · rename_i hnone
      exact absurd hnone (hs.current.stateBefore_ne wf hhist hdec _)
    · rename_i st hst
      cases hn
      refine hs.setDesk (fun _ _ he => by cases he) (hs.head i) fun del hdel => ?_
      cases hdel
      refine ⟨pre, post, [], hhist, hdec, fun hexact => ?_, fun _ he => (List.not_mem_nil he).elim⟩
      obtain ⟨st', hst', hstands⟩ := (hs.single hexact).stateBefore wf hhist hdec (hs.cache hexact i)
      cases hst.symm.trans hst'
      exact .begin hdec hstands
  · cases hn

/-- **An attempt found to have ended** has ended in a part of the history that has its event. -/
theorem Hub.Sound.ended (wf : WellFormed c.fl) (hm : m ∈ h.world.hist) (hev : ev ∈ m.decode)
    {ended : Bool} {head : Option Head}
    (he : endedAtHead c (h.desks i).head h.world.store ev.seq s = .ok (ended, head)) :
    (∀ hv, head = some hv → hv.Fits c h.world.hist) ∧ (ended = true → EndedAfter c h.world.hist ev s.run) := by
  have hw := hs.current.sound.written
  have hseq : ev.seq = m.seq := m.decode_seq ev hev
  -- a state at or after the decision
  have hfound : ∀ st, c.Past h.world.hist st → ev.seq ≤ st.lastSeq → (!st.inFlight s.run) = true → EndedAfter c h.world.hist ev s.run := by
    rintro st ⟨p, hp, hf⟩ hle hover
    obtain ⟨s₀, hs₀, hflight⟩ := hf.inFlight
    rw [hf.lastSeq wf (hw.of_prefix hp), hseq] at hle
    refine ⟨p, s₀, hp, List.mem_flatMap.2 ⟨m, hw.mem_of_seq wf hp hm hle, hev⟩, hs₀, ?_⟩
    rw [hflight]
    simpa using hover
  unfold endedAtHead at he
  cases hview : headView (h.desks i).head ev.seq with
  | some hv =>
    simp only [hview] at he
    cases he
    obtain ⟨hhv, hle⟩ := Option.filter_eq_some_iff.1 hview
    have hfits := hs.head i hv hhv
    have hle : ev.seq ≤ hv.seq := by simpa using hle
    refine ⟨fun hv' he => ?_, fun hover => hfound hv.st hfits.2 (hfits.1 ▸ hle) hover⟩
    cases he
    exact hfits
  | none =>
    simp only [hview] at he
    split at he
    · cases he
      exact ⟨fun hv hnone => (by cases hnone), fun hfalse => (by cases hfalse)⟩
    · rename_i hlast
      obtain ⟨st, hst, hf⟩ := hs.current.sound.fresh wf (σ := h.world.store) rfl
      simp only [hst] at he
      cases he
      refine ⟨fun hv' he => ?_, fun hover => hfound st ⟨_, List.prefix_rfl, hf⟩ ?_ hover⟩
      · cases he
        exact ⟨rfl, _, List.prefix_rfl, hf⟩
      · -- the log goes on after the decision
        have hhead : h.world.store.lastSeq = headSeq h.world.hist := hs.current.sound.lastSeq wf
        rw [hf.lastSeq wf hw]
        omega

/-- The head kept, and what becomes of an attempt the event schedules. -/
theorem Hub.Sound.looks (wf : WellFormed c.fl) (hd : d.fl = c.fl) (hm : m ∈ h.world.hist) (hev : ev ∈ m.decode) {st st' : State}
    (hst' : applySeq c.x c.fl st ev = .ok st') {cached : Option CacheEntry} {now : Time} {l : Look} {head : Option Head}
    (hlook : Hub.look c (h.desks i) h.world.store ev cached now = .ok (l, head)) :
    (∀ hv, head = some hv → hv.Fits c h.world.hist) ∧
    ∀ s, ev.data = .scheduled s → HandedOut (d.effects l st' ev) s.run ∨ EndedAfter c h.world.hist ev s.run := by
  unfold Hub.look at hlook
  cases hdata : ev.data with
  | scheduled s =>
    simp only [hdata] at hlook
    cases hended : endedAtHead c (h.desks i).head h.world.store ev.seq s with
    | error e => rw [hended] at hlook; cases hlook
    | ok eh =>
      rw [hended] at hlook
      cases hlook
      obtain ⟨ended, head⟩ := eh
      obtain ⟨hhead, hover⟩ := hs.ended wf hm hev hended
      refine ⟨hhead, fun s' hs' => ?_⟩
      cases hs'
      cases ended with
      | true => exact .inr (hover rfl)
      | false =>
        obtain ⟨t, ht, hg, ha⟩ := applySeq_task hdata hst'
        obtain ⟨n, hnode⟩ := hs.current.sound.written.schedules_known wf (List.mem_flatMap.2 ⟨m, hm, hev⟩) hdata
        refine .inl ?_
        unfold Dispatcher.effects
        rw [hdata]
        exact Dispatcher.job_handed rfl ht hg ha (hd ▸ hnode)
  | _ =>
    simp only [hdata] at hlook
    cases hlook
    exact ⟨hs.head i, fun s' hs' => by cases hs'⟩

/-- What the next event of a decision leaves behind. -/
theorem Hub.Sound.effect (wf : WellFormed c.fl) (hd : d.fl = c.fl) {σ : Store} {cached : Option CacheEntry} {now : Time}
    (hσ : h.world.Fresh σ) (hn : h.effect c d i σ cached now = some h') : h'.Sound c d exact := by
  rw [show σ = h.world.store from hσ] at hn
  have hw := hs.current.sound.written
  unfold Hub.effect at hn
  split at hn
  · rename_i m st ev rest hbusy
    obtain ⟨pre, post, done, hhist, hdec, hstands, hall⟩ := hs.busy i _ hbusy
    have hm : m ∈ h.world.hist := by rw [hhist]; simp
    have hev : ev ∈ m.decode := by
      show ev ∈ m.decode
      rw [show m.decode = done ++ ev :: rest from hdec]
      simp
    split at hn
    · cases hn
      exact hs.setDesk (fun hexact => hs.cache hexact i) (hs.head i) fun _ he => by cases he
    rename_i st' hst'
    have hstands' : exact → Stands c pre m (done ++ [ev]) st' := by
      intro hexact
      obtain ⟨t, ht, hstands'⟩ := Stands.step wf (hhist ▸ hw) (hstands hexact) hdec
      cases hst'.symm.trans ht
      exact hstands'
    split at hn
    · cases hn
      exact hs.setDesk (fun hexact => hs.cache hexact i) (fun _ he => by cases he) fun _ he => by cases he
    · rename_i l head hlook
      cases hn
      have hnext := hs.looks wf hd hm hev hst' hlook
      refine (hs.run ev l st').setDesk (fun hexact => hs.cache hexact i) hnext.1 fun del hdel => ?_
      cases hdel
      refine ⟨pre, post, done ++ [ev], hhist, by rw [hdec]; simp, hstands', fun e he => ?_⟩
      rcases List.mem_append.1 he with he | he
      · exact (hall e he).mono List.prefix_rfl fun y hy => List.mem_cons_of_mem _ hy
      · rw [List.mem_singleton.1 he]
        exact ⟨_, List.mem_cons_self, hnext.2⟩
  · cases hn

theorem Hub.Sound.finish {indexed : Bool} (hn : h.finish i indexed = some h') : h'.Sound c d exact := by
  unfold Hub.finish at hn
  split at hn
  · rename_i m st hbusy
    obtain ⟨pre, post, done, hhist, hdec, hstands, hall⟩ := hs.busy i _ hbusy
    have hdone : m.decode = done := by rw [show m.decode = done ++ [] from hdec, List.append_nil]
    subst hdone
    have hcached : (h.setDesk i { h.desks i with cache := some st, busy := none }).Sound c d exact := by
      refine hs.setDesk (fun hexact st' he => ?_) (hs.head i) fun _ he => by cases he
      cases he
      refine ⟨pre ++ [m], ?_, (hstands hexact).finish⟩
      rw [hhist]
      exact ⟨post, by simp⟩
    cases hn
    cases indexed with
    | false => exact hcached
    | true => exact hcached.ack (m := m) (by show m ∈ h.world.hist; rw [hhist]; simp) hall
  · cases hn

/-- **Every step of the hub keeps it sound.** -/
theorem Hub.Sound.step (wf : WellFormed c.fl) (hd : d.fl = c.fl) {a : HubAction} (hclear : h.clears a = false) (hok : exact → HubOk h a)
    (hstep : HubStep c d h a h') : h'.Sound c d exact := by
  have hn := hstep.next
  have hnone : ∀ {i : Nat} {k : Desk}, k.cache = none → (k.head = none ∨ k.head = (h.desks i).head) →
      (k.busy = none ∨ k.busy = (h.desks i).busy) → (h.setDesk i k).Sound c d exact := by
    intro i k hcache hhead hbusy
    refine hs.setDesk (fun _ st he => by rw [hcache] at he; cases he) (fun hv he => ?_) fun del he => ?_
    · rcases hhead with hnone | hsame
      · rw [hnone] at he; cases he
      · exact hs.head i hv (hsame ▸ he)
    · rcases hbusy with hnone | hsame
      · rw [hnone] at he; cases he
      · exact hs.busy i del (hsame ▸ he)
  cases a with
  | work act =>
    obtain ⟨w, hw, rfl⟩ := Option.map_eq_some_iff.1 hn
    obtain ⟨hfresh, hfloor⟩ := hstep.work act rfl
    exact hs.work wf hclear hok hfresh hfloor
  | take i m σ => exact hs.take wf (hstep.delivered i m σ rfl) (hstep.view σ rfl) hn
  | effect i σ cached now => exact hs.effect wf hd (hstep.view σ rfl) hn
  | finish i indexed => exact hs.finish hn
  | fail i => cases hn; exact hnone rfl (.inr rfl) (.inl rfl)
  | evict i => cases hn; exact hnone rfl (.inr rfl) (.inr rfl)
  | forget i =>
    cases hn
    exact hs.setDesk (fun hexact => hs.cache hexact i) (fun _ he => by cases he) (hs.busy i)
  | crash i => cases hn; exact hnone rfl (.inl rfl) (.inl rfl)

omit hs in
theorem Hub.Sound.init {caches : Nat → Option State} (hnone : exact → ∀ i, caches i = none) : Hub.Sound c d exact (.fresh caches) :=
  ⟨⟨.init, rfl⟩, fun _ _ he => (by cases he), fun _ _ he => (by cases he), fun _ hm => (List.not_mem_nil hm).elim,
    fun _ hm => (List.not_mem_nil hm).elim, fun _ _ he => (List.not_mem_nil he).elim, fun _ => .init c, fun hexact i _ he => (by cases (hnone hexact i).symm.trans he)⟩

omit hs in
theorem Hub.Sound.of_exact_run (wf : WellFormed c.fl) (hd : d.fl = c.fl) (hrun : Run (HubStep c d) HubOk {} h) : h.Sound c d True :=
  hrun.invariant (.init fun _ _ => rfl) fun _ _ _ hu hok hs => hu.step wf hd hok.not_clears (fun _ => hok) hs

omit hs in
/-- Only engines write the log. -/
theorem Hub.step_world {a : HubAction} (hn : h.step c d a = some h') :
    h'.world = h.world ∨ ∃ act, a = .work act ∧ h.world.step c act = some h'.world ∧ h'.acked = h.acked := by
  cases a with
  | work act =>
    obtain ⟨w, hw, rfl⟩ := Option.map_eq_some_iff.1 hn
    exact .inr ⟨act, rfl, hw, rfl⟩
  | take i m σ | effect i σ cached now | finish i indexed =>
    left
    simp only [Hub.step, Hub.take, Hub.effect, Hub.finish] at hn
    repeat' split at hn
    all_goals cases hn <;> rfl
  | fail i | evict i | forget i | crash i => cases hn; exact .inl rfl

omit hs in
theorem Hub.grows (hrun : Run (HubStep c d) (fun u a => u.clears a = false) h h') : h.world.hist <+: h'.world.hist := by
  refine hrun.invariant (I := fun u : Hub => h.world.hist <+: u.world.hist) List.prefix_rfl fun u a u' hu hclear hs => ?_
  rcases Hub.step_world hs.next with hsame | ⟨act, rfl, hstep, -⟩
  · rw [hsame]
    exact hu
  · exact hu.trans (World.step_does hclear hstep).grows

end

/-- **The dispatcher folds every decision onto the right state.** -/
theorem dispatcher_folds {c : Setup} {d : Dispatcher} (hv : validate c.x c.fl = []) (hd : d.fl = c.fl) {h : Hub}
    (hrun : Run (HubStep c d) HubOk {} h) {pre post : List Message} {m : Message} (hhist : h.world.hist = pre ++ m :: post) (i : Nat) :
    ∃ ev evs st, m.decode = ev :: evs ∧ stateBefore c (h.desks i).cache h.world.store ev = .ok (some st) ∧
      (ev.data.isContinued = true ∧ st = State.new c.execID ∨ Folds c.x c.fl c.execID pre st) ∧
      ∃ t, replay (applySeq c.x c.fl) st m.decode = .ok t ∧ Folds c.x c.fl c.execID (pre ++ [m]) t := by
  have wf := wellFormed_of_validate hv
  have hs := Hub.Sound.of_exact_run wf hd hrun
  have hw := hs.current.sound.written
  rw [hhist] at hw
  obtain ⟨ev, evs, hdec⟩ := List.exists_cons_of_ne_nil hw.decode_ne
  obtain ⟨st, hst, hstands⟩ := (hs.single trivial).stateBefore wf hhist hdec (hs.cache trivial i)
  exact ⟨ev, evs, st, hdec, hst, hstands, (Stands.begin hdec hstands).replay wf hw rfl⟩

def World.message (w : World) (seq : Nat) : Message := (w.hist.find? fun m => m.seq == seq).getD ⟨seq, []⟩

def World.has (w : World) (seq : Nat) : Bool := w.hist.any fun m => m.seq == seq

def Action.reading (σ : Store) : Action → Action
  | .decide i _ a now trace => .decide i σ a now trace
  | .archive i _ => .archive i σ
  | .delete i _ now => .delete i σ now
  | .proceed i _ => .proceed i σ
  | act => act

/-- A command is taken up, a decision appended, or the execution archived or deleted. -/
def Action.isPlain : Action → Bool
  | .decide _ _ (.command _) _ _ | .append .. | .rest _ | .archive .. | .delete .. | .proceed .. => true
  | _ => false

def HubAction.reading (h : Hub) : HubAction → HubAction
  | .work act => .work (act.reading h.world.store)
  | .take i m _ => .take i (h.world.message m.seq) h.world.store
  | .effect i _ cached now => .effect i h.world.store cached now
  | a => a

def HubAction.isPlain (h : Hub) : HubAction → Bool
  | .work act => act.isPlain
  | .take _ m _ => h.world.has m.seq
  | _ => true

def HubAction.frees : HubAction → Bool
  | .work act => act.frees
  | _ => false

/-- The next move of a scenario, if it is one of those meant. -/
def Hub.play (c : Setup) (d : Dispatcher) (meant : Hub → HubAction → Bool) (h : Hub) (a : HubAction) : Option Hub :=
  if a.isPlain h && meant h (a.reading h) then h.step c d (a.reading h) else none

section
variable {c : Setup} {d : Dispatcher} {w w' : World} {h h' : Hub} {a : HubAction}

theorem World.message_mem {seq : Nat} (h : w.has seq = true) : w.message seq ∈ w.hist ∧ (w.message seq).seq = seq := by
  obtain ⟨m, hm⟩ := Option.isSome_iff_exists.1 (List.find?_isSome.2 (List.any_eq_true.1 h))
  rw [show w.message seq = m by rw [World.message, hm]; rfl]
  exact ⟨List.mem_of_find?_eq_some hm, by simpa using List.find?_some hm⟩

theorem Action.isPlain.step {act : Action} (h : act.isPlain = true) (hn : w.step c (act.reading w.store) = some w') :
    Step c World.Fresh w (act.reading w.store) w' := by
  cases act with
  | decide i σ a now trace =>
    cases a with
    | command req =>
      refine ⟨fun σ' he => (Option.some.inj he).symm, fun a he src hsrc => ?_, hn⟩
      cases he
      cases hsrc
    | fork => cases h
  | append | rest => exact ⟨fun _ he => (by cases he), fun _ he => (by cases he), hn⟩
  | archive | delete | proceed => exact ⟨fun _ he => (Option.some.inj he).symm, fun _ he => (by cases he), hn⟩
  | _ => cases h

/-- No segment is written. -/
theorem Action.isPlain.puts {act : Action} (h : act.isPlain = true) : PutsAtHead w (act.reading w.store) := by
  cases act <;> trivial

theorem HubAction.isPlain.step (ha : a.isPlain h = true) (hn : h.step c d (a.reading h) = some h') : HubStep c d h (a.reading h) h' := by
  cases a with
  | work act =>
    obtain ⟨w, hw, rfl⟩ := Option.map_eq_some_iff.1 hn
    refine ⟨fun act' he => ?_, fun _ _ _ he => (by cases he), fun _ he => (by cases he), hn⟩
    cases he
    refine ⟨Action.isPlain.step ha hw, ?_⟩
    cases act <;> trivial
  | take i m σ =>
    refine ⟨fun _ he => (by cases he), fun _ _ _ he => ?_, fun _ he => (Option.some.inj he).symm, hn⟩
    cases he
    exact (World.message_mem ha).1
  | effect i => exact ⟨fun _ he => (by cases he), fun _ _ _ he => (by cases he), fun _ he => (Option.some.inj he).symm, hn⟩
  | _ => exact ⟨fun _ he => (by cases he), fun _ _ _ he => (by cases he), fun _ he => (by cases he), hn⟩

theorem HubAction.isPlain.ok (ha : a.isPlain h = true) (hfree : (a.reading h).frees = false) : HubOk h (a.reading h) := by
  cases a with
  | work act => exact ⟨hfree, Action.isPlain.puts ha⟩
  | _ => trivial

theorem Hub.run_of_play {meant : Hub → HubAction → Bool} {ok : Hub → HubAction → Prop}
    (hok : ∀ (u : Hub) (a : HubAction), a.isPlain u = true → meant u (a.reading u) = true → ok u (a.reading u)) {as : List HubAction}
    (hexec : exec (Hub.play c d meant) {} as = some h) : Run (HubStep c d) ok {} h := by
  refine Run.of_exec .refl (fun a _ u u' hn => ?_) hexec
  unfold Hub.play at hn
  split at hn
  · rename_i hmeant
    obtain ⟨hplain, hmeant⟩ := Bool.and_eq_true_iff.1 hmeant
    exact ⟨_, hok u a hplain hmeant, HubAction.isPlain.step hplain hn⟩
  · cases hn

end

/-- Engine 0 decides a command. -/
def decided (req : Command) (now : Time) (seq : Nat) : List Action := [.decide 0 {} (.command req) now "", .append 0 seq true, .rest 0]

/-- Dispatcher 0 deals with a decision of `n` events. -/
def dispatched (seq n : Nat) : List HubAction := .take 0 ⟨seq, []⟩ {} :: (List.replicate n (.effect 0 {} none 2) ++ [.finish 0 true])

/-- The review is started and completed; dispatcher 0 has processed the start. -/
def dispatchedReview : List HubAction :=
  (decided startReview 1 1).map .work ++ dispatched 1 4 ++ (decided completeDraft 3 2).map .work

def dispatchedHub : Hub := (exec (Hub.play reviewSetup plainDispatcher fun _ a => !a.frees) {} dispatchedReview).get (by decide +kernel)

theorem dispatchedHub_evaluates : dispatchedHub.world.hist.length = 2 ∧ (dispatchedHub.desks 0).cache.isSome = true ∧
    (dispatchedHub.acked.any fun m => m.decode.any fun ev => ev.schedules == some ⟨"draft", 1, 1⟩) = true := by
  decide +kernel

/-- The completion is folded onto the state dispatcher 0 has kept. -/
theorem dispatchedHub_folds : ∃ first second, dispatchedHub.world.hist = [first, second] ∧ (dispatchedHub.desks 0).cache.isSome = true ∧
    ∃ ev evs st, second.decode = ev :: evs ∧ stateBefore reviewSetup (dispatchedHub.desks 0).cache dispatchedHub.world.store ev = .ok (some st) ∧
      (ev.data.isContinued = true ∧ st = State.new reviewSetup.execID ∨ Folds reviewSetup.x reviewSetup.fl reviewSetup.execID [first] st) ∧
      ∃ t, replay (applySeq reviewSetup.x reviewSetup.fl) st second.decode = .ok t ∧
        Folds reviewSetup.x reviewSetup.fl reviewSetup.execID ([first] ++ [second]) t := by
  obtain ⟨hlen, hcache, -⟩ := dispatchedHub_evaluates
  obtain ⟨first, second, hhist⟩ := List.length_eq_two.1 hlen
  have hsplit : dispatchedHub.world.hist = [first] ++ second :: [] := hhist
  have hrun : Run (HubStep reviewSetup plainDispatcher) HubOk {} dispatchedHub :=
    Hub.run_of_play (fun _ _ ha hfree => HubAction.isPlain.ok ha (by simpa using hfree)) (Option.some_get _).symm
  exact ⟨first, second, hhist, hcache, dispatcher_folds oneTask_valid rfl hrun hsplit 0⟩

def archiving : List HubAction := [.work (.archive 0 {}), .work (.proceed 0 {})]

/-- The review is deleted and started again. -/
def restartedHub : Hub :=
  (exec (Hub.play reviewSetup plainDispatcher fun _ _ => true) {}
    (dispatchedReview ++ (Action.delete 0 {} 5 :: List.replicate 4 (Action.proceed 0 {}) ++ decided startReview 20 3 ++
      decided completeDraft 21 4).map .work)).get (by decide +kernel)

/-- Dispatcher 0 takes the state of the first review for that of the second. -/
theorem restarted_id_misleads : Run (HubStep reviewSetup plainDispatcher) (fun _ _ => True) {} restartedHub ∧
    ∃ first second ev evs st, restartedHub.world.hist = [first, second] ∧ second.decode = ev :: evs ∧ ev.data.isContinued = false ∧
      stateBefore reviewSetup (restartedHub.desks 0).cache restartedHub.world.store ev = .ok (some st) ∧
      ¬Folds reviewSetup.x reviewSetup.fl reviewSetup.execID [first] st := by
  obtain ⟨hlen, hbefore, hfold⟩ : restartedHub.world.hist.length = 2 ∧
      ((restartedHub.world.hist[1]?.bind fun m => m.decode.head?).map fun ev => (ev.data.isContinued,
        (stateBefore reviewSetup (restartedHub.desks 0).cache restartedHub.world.store ev).toOption.join.map State.created)) = some (false, some 1) ∧
      ((foldOf reviewSetup.x reviewSetup.fl reviewSetup.execID (restartedHub.world.hist.take 1)).toOption.map State.created) = some 20 := by
    decide +kernel
  refine ⟨Hub.run_of_play (fun _ _ _ _ => trivial) (Option.some_get _).symm, ?_⟩
  obtain ⟨first, second, hhist⟩ := List.length_eq_two.1 hlen
  rw [hhist] at hbefore hfold
  cases hdec : second.decode with
  | nil => simp [hdec] at hbefore
  | cons ev evs =>
    simp only [List.getElem?_cons_succ, List.getElem?_cons_zero, Option.bind_some, hdec, List.head?_cons, Option.map_some, Option.some.injEq,
      Prod.mk.injEq] at hbefore
    obtain ⟨hcont, hst⟩ := hbefore
    obtain ⟨st, hjoin, hcreated⟩ := Option.map_eq_some_iff.1 hst
    refine ⟨first, second, ev, evs, st, hhist, hdec, hcont, ?_, fun hfolds => ?_⟩
    · cases hbefore : stateBefore reviewSetup (restartedHub.desks 0).cache restartedHub.world.store ev with
      | error e => rw [hbefore] at hjoin; cases hjoin
      | ok o => rw [hbefore] at hjoin; exact congrArg Except.ok hjoin
    · obtain ⟨s, hs, hm⟩ := hfolds
      have hsame : st.encoded.created = s.encoded.created := congrArg (State.created ∘ Encoding.decoded) hm
      rw [List.take_succ_cons, List.take_zero, hs] at hfold
      rw [show st.encoded.created = 1 from hcreated, show s.encoded.created = 20 from Option.some.inj hfold] at hsame
      cases hsame

end Packtrail
