import Packtrail.Redispatch
import Packtrail.Archive
import Packtrail.Entering

/-
# Running a node again

`Client.Rerun` (`client.go:937-983`) looks in the history for the last decision that entered a node and forks
the execution at its end, if the node is still in flight there.

| here | there |
| --- | --- |
| `State.isOpen`       | `State.Open` (`internal/fold/state.go:139-160`) |
| `Store.clientHistory`, `Store.stateAt` | `Client.History`, `Client.StateAt` (`client.go:490-539`) |
| `lastEntry`, `rerun` | `Client.Rerun` up to the fork it asks for |
| `Store.forkSource`   | what `decideFork` forks from (`internal/engine/engine.go:550-561`) |

A fork dispatches nothing for a task that waits for an answer, so it matters that none does at the end of a
decision that entered a node (`Turn.unasked`). **`rerun_dispatches`** is the result: the fork dispatches the
node's own work, and the decisions after the cut do not enter the node.

The history, the state and the fork's source are read one after another: the log may have grown in
between, or have been archived.
-/

namespace Packtrail

open Replay

/-! ## The client -/

def State.isOpen (s : State) (node : String) : Bool :=
  s.fans.contains node || s.maps.contains node || s.awaits.contains node ||
    (s.tasks.toList.any fun kt => kt.2.node == node) || s.children.toList.any fun kc => kc.2.nodeOf kc.1 == node

inductive ClientErr
  | notFound (execID : String)
  | invalidArgument (msg : String)
  | load (e : LoadErr)

def LoadErr.forClient (execID : String) : LoadErr → ClientErr
  | .notArchived => .notFound execID
  | e => .load e

def entryAt (node : String) (at_ : Nat) (ev : Event) : Nat :=
  match ev.data with
  | .entered d => if d.node = node then ev.seq else at_
  | _ => at_

/-- The sequence of the last event that entered `node`, 0 if there is none. -/
def lastEntry (evs : List Event) (node : String) : Nat := evs.foldl (entryAt node) 0

/-- The end of the first decision from `at_` on. -/
def cutFrom (evs : List Event) (at_ : Nat) : Nat :=
  ((evs.find? fun ev => at_ ≤ ev.seq && ev.decisionEnd).map Event.seq).getD 0

section
variable (x : Ext) (fl : Flow)

def Store.clientHistory (σ : Store) (execID : String) : Except ClientErr (List Event) :=
  (σ.history execID).mapError (·.forClient execID)

def Store.stateAt (σ : Store) (execID : String) (seq : Nat) : Except ClientErr State :=
  match σ.load x fl execID seq with
  | .error e => .error (.load e)
  | .ok st => if st.exists then .ok st else (σ.loadArchived x fl execID seq).mapError (·.forClient execID)

def Store.forkSource (σ : Store) (source : String) (seq : Nat) : Except LoadErr State :=
  match σ.load x fl source seq with
  | .error e => .error e
  | .ok src => if src.exists then .ok src else σ.loadArchived x fl source seq

/-- The sequence `Rerun` forks at: the history is read from `σ` and the state from `σ'`. -/
def rerun (σ σ' : Store) (execID node : String) : Except ClientErr Nat :=
  match σ.clientHistory execID with
  | .error e => .error e
  | .ok evs =>
    if lastEntry evs node = 0 then
      .error (.invalidArgument ("node " ++ x.quote node ++ " never ran in " ++ execID))
    else
      let cut := cutFrom evs (lastEntry evs node)
      match σ'.stateAt x fl execID cut with
      | .error e => .error e
      | .ok st =>
        if st.isOpen node then .ok cut
        else .error (.invalidArgument ("node " ++ x.quote node ++ " of " ++ execID ++
          " settled in the decision that entered it; rerun the node before it"))

end

/-! ## Reading a history that is live or archived -/

/-- A store that keeps history `hist`: it shows it, or did when it was archived. -/
inductive Keeps (x : Ext) (fl : Flow) (execID : String) (hist : List Message) : Store → Prop
  | live {σ : Store} (h : Shows x fl execID hist σ) : Keeps x fl execID hist σ
  | archived {σ σ' : Store} (h : Shows x fl execID hist σ) (ha : σ.archive x fl execID = .ok σ') : Keeps x fl execID hist σ'

section
variable {x : Ext} {fl : Flow} {execID : String} {hist : List Message} {σ : Store}

theorem Written.settled (wf : WellFormed fl) (hw : Written x fl execID hist) (hne : hist ≠ []) :
    ∃ base s, Path (applySeq x fl) (Stored fl base) (State.new execID) (eventsOf hist) s ∧ Settled fl base s := by
  obtain ⟨base, s, hp, hset⟩ := hw.path wf
  exact ⟨base, s, hp, hset.resolve_left hne⟩

/-- A store that keeps a history shows it, or holds its archive. -/
theorem Keeps.cases (wf : WellFormed fl) (hw : Written x fl execID hist) (hne : hist ≠ []) (h : Keeps x fl execID hist σ) :
    Shows x fl execID hist σ ∨ ∃ σ₀ first rest, Shows x fl execID hist σ₀ ∧ eventsOf σ₀.live = first :: rest ∧
      σ = σ₀.moved execID (first :: rest) := by
  cases h with
  | live h => exact .inl h
  | @archived σ₀ _ h ha =>
    obtain ⟨base, s, hp, hset⟩ := hw.settled wf hne
    by_cases hterm : s.status.terminal = true
    · obtain ⟨first, rest, hfirst, -, harch⟩ := h.archive wf hw hp.replay hset.exists hterm
      cases harch.symm.trans ha
      exact .inr ⟨σ₀, first, rest, h, hfirst, rfl⟩
    · -- what is not finished is not moved
      obtain ⟨s₀, t₀, hs₀, hload, hm, -⟩ := h.load wf hw 0
      have hall : (eventsOf hist).filter (fun ev => within 0 ev.seq) = eventsOf hist := List.filter_eq_self.2 fun ev _ => rfl
      rw [hall] at hs₀
      cases hp.replay.symm.trans hs₀
      have hst : t₀.status = s.status := (State.alike_of_marshal hm).status
      simp only [Store.archive, hload, hst, hterm, Bool.not_false, Bool.or_true, if_true] at ha
      cases ha
      exact .inl h

theorem Keeps.history (wf : WellFormed fl) (hw : Written x fl execID hist) (hne : hist ≠ []) (h : Keeps x fl execID hist σ) :
    σ.history execID = .ok (eventsOf hist) := by
  rcases h.cases wf hw hne with h | ⟨σ₀, first, rest, hσ, hfirst, rfl⟩
  · obtain ⟨base, s, hp, hset⟩ := hw.settled wf hne
    have hc := Path.chronicle hp
    have hlive := h.live.live_ne hc hset.exists
    have hfull := withSegments_full wf hw h.live h.objects
    unfold Store.history
    rw [h.live.read_all hc]
    simp only [List.isEmpty_eq_false_iff.2 hlive]
    exact hfull
  · exact hσ.history_moved wf hw hfirst

theorem Store.load_moved (σ : Store) (evs : List Event) (q : Nat) : (σ.moved execID evs).load x fl execID q = .ok (State.new execID) := by
  have hhist : (σ.moved execID evs).loadFromHistory x fl execID q = .ok (State.new execID) := rfl
  have hfrom : (σ.moved execID evs).loadFrom x fl execID q none [] = .ok (State.new execID) := by
    simp only [Store.loadFrom, Option.isNone_none, List.isEmpty_nil, Bool.and_self, if_true, hhist, ite_self]
  exact hfrom

theorem Store.stateAt_ok {q : Nat} {st : State} (h : σ.stateAt x fl execID q = .ok st) : σ.forkSource x fl execID q = .ok st := by
  unfold Store.stateAt at h
  unfold Store.forkSource
  cases hl : σ.load x fl execID q with
  | error e => rw [hl] at h; cases h
  | ok t =>
    rw [hl] at h
    simp only at h ⊢
    split at h
    · rename_i hex
      rw [if_pos hex]
      exact congrArg Except.ok (Except.ok.inj h)
    · rename_i hex
      rw [if_neg hex]
      cases ha : σ.loadArchived x fl execID q with
      | error e => rw [ha] at h; cases h
      | ok u => rw [ha] at h; exact congrArg Except.ok (Except.ok.inj h)

/-- The events up to a message. -/
theorem Written.upTo (wf : WellFormed fl) {pre post : List Message} {m : Message} (hw : Written x fl execID (pre ++ m :: post)) :
    ((eventsOf (pre ++ m :: post)).filter fun ev => within m.seq ev.seq) = eventsOf (pre ++ [m]) := by
  obtain ⟨hsorted, hpos⟩ := hw.sorted wf
  have hm := (hpos m (by simp)).1
  obtain ⟨-, hrest, hlt⟩ := List.pairwise_append.1 hsorted
  have hpre : pre.filter (fun k => within m.seq k.seq) = pre := by
    refine List.filter_eq_self.2 fun k hk => ?_
    have := hlt k hk m (by simp)
    simp only [within, Bool.or_eq_true, decide_eq_true_eq]
    omega
  have hpost : post.filter (fun k => within m.seq k.seq) = [] := by
    refine List.filter_eq_nil_iff.2 fun k hk => ?_
    have := List.rel_of_pairwise_cons hrest hk
    simp only [within, Bool.or_eq_true, decide_eq_true_eq]
    omega
  have hself : within m.seq m.seq = true := by simp [within]
  rw [← eventsOf_filter (within m.seq), List.filter_append, List.filter_cons, if_pos hself, hpre, hpost]

/-- What is read at the sequence of a message is the fold up to it. -/
theorem Keeps.source (wf : WellFormed fl) {pre post : List Message} {m : Message} (hw : Written x fl execID (pre ++ m :: post))
    (h : Keeps x fl execID (pre ++ m :: post) σ) {src : State} (hsrc : σ.forkSource x fl execID m.seq = .ok src) :
    ∃ s, foldOf x fl execID (pre ++ [m]) = .ok s ∧ src.marshal = s.marshal := by
  have hne : pre ++ m :: post ≠ [] := by simp
  have hwm : Written x fl execID (pre ++ [m]) := hw.of_prefix ⟨post, by simp⟩
  obtain ⟨b, s, hs, hset⟩ := hwm.settled wf (by simp)
  refine ⟨s, hs.replay, ?_⟩
  unfold Store.forkSource at hsrc
  rcases h.cases wf hw hne with h | ⟨σ₀, first, rest, hσ, hfirst, rfl⟩
  · obtain ⟨s₀, t, hs₀, hload, hm, -⟩ := h.load wf hw m.seq
    rw [hw.upTo wf] at hs₀
    cases hs.replay.symm.trans hs₀
    have hex : t.exists = true := (hset.alike (State.alike_of_marshal hm).symm).exists
    simp only [hload, hex, if_true] at hsrc
    cases hsrc
    exact hm
  · obtain ⟨base, send, hp, -⟩ := hw.path wf
    obtain ⟨su, hsu⟩ := Path.cut hp m.seq
    have hfold := hsu.replay
    rw [hw.upTo wf] at hfold
    cases hs.replay.symm.trans hfold
    have hnew : (State.new execID).exists = false := rfl
    simp only [Store.load_moved, hnew, Bool.false_eq_true, if_false, hσ.loadArchived wf hw hfirst hp hsu] at hsrc
    split at hsrc
    · cases hsrc
      rfl
    · cases hsrc

end

/-! ## The last entry and its decision -/

/-- The node an event enters. -/
def Event.enters (ev : Event) : Option String :=
  match ev.data with
  | .entered d => some d.node
  | _ => none

section
variable {evs : List Event} {node : String}

theorem lastEntry_snoc (evs : List Event) (ev : Event) (node : String) :
    lastEntry (evs ++ [ev]) node = if ev.enters = some node then ev.seq else lastEntry evs node := by
  have hstep : ∀ a, entryAt node a ev = if ev.enters = some node then ev.seq else a := by
    intro a
    unfold entryAt Event.enters
    cases hd : ev.data with
    | entered d => simp only [Option.some.injEq]
    | _ => simp only [reduceCtorEq, if_false]
  simp only [lastEntry, List.foldl_append, List.foldl_cons, List.foldl_nil, hstep]

/-- No later event enters the node. -/
theorem le_lastEntry (hs : evs.Pairwise fun a b => a.seq ≤ b.seq) {ev : Event} (hev : ev ∈ evs) (he : ev.enters = some node) :
    ev.seq ≤ lastEntry evs node := by
  induction evs using List.reverseRecOn with
  | nil => cases hev
  | append_singleton evs e ih =>
    obtain ⟨hevs, -, hle⟩ := List.pairwise_append.1 hs
    rw [lastEntry_snoc]
    rcases List.mem_append.1 hev with hev | hev
    · split
      · exact hle ev hev e (by simp)
      · exact ih hevs hev
    · obtain rfl : ev = e := by simpa using hev
      rw [if_pos he]

theorem lastEntry_mem (h : lastEntry evs node ≠ 0) : ∃ ev ∈ evs, ev.enters = some node ∧ ev.seq = lastEntry evs node := by
  induction evs using List.reverseRecOn with
  | nil => exact absurd rfl h
  | append_singleton evs e ih =>
    rw [lastEntry_snoc] at h ⊢
    split at h
    · rename_i he
      exact ⟨e, by simp, he, by rw [if_pos he]⟩
    · rename_i he
      obtain ⟨ev, hev, henters, hseq⟩ := ih h
      exact ⟨ev, List.mem_append_left _ hev, henters, by rw [if_neg he]; exact hseq⟩

end

theorem markEnd_ends {evs : List Event} (h : evs ≠ []) : ∃ ev ∈ markEnd evs, ev.decisionEnd = true := by
  induction evs with
  | nil => exact absurd rfl h
  | cons ev evs ih =>
    cases evs with
    | nil => exact ⟨_, List.mem_singleton_self _, rfl⟩
    | cons e evs =>
      obtain ⟨e', he', hend⟩ := ih (by simp)
      exact ⟨e', List.mem_cons_of_mem _ he', hend⟩

theorem Message.decode_ends {m : Message} (h : m.decode ≠ []) : ∃ ev ∈ m.decode, ev.decisionEnd = true := by
  refine markEnd_ends fun hnil => h ?_
  unfold Message.decode
  rw [hnil]
  rfl

section
variable {x : Ext} {fl : Flow} {execID : String} {pre post : List Message} {m : Message}

/-- The cut is the end of the message it is looked for in. -/
theorem Written.cut (wf : WellFormed fl) (hw : Written x fl execID (pre ++ m :: post)) (hne : m.decode ≠ []) :
    cutFrom (eventsOf (pre ++ m :: post)) m.seq = m.seq := by
  obtain ⟨-, -, hlt⟩ := List.pairwise_append.1 (hw.sorted wf).1
  have hpre : (eventsOf pre).find? (fun ev => m.seq ≤ ev.seq && ev.decisionEnd) = none := by
    refine List.find?_eq_none.2 fun ev hev => ?_
    obtain ⟨k, hk, hev⟩ := List.mem_flatMap.1 hev
    have := hlt k hk m (by simp)
    rw [← k.decode_seq ev hev] at this
    simp [Nat.not_le.2 this]
  have hm : ∃ ev ∈ m.decode, m.decode.find? (fun ev => m.seq ≤ ev.seq && ev.decisionEnd) = some ev := by
    obtain ⟨e, he, hend⟩ := Message.decode_ends hne
    have hsome : (m.decode.find? fun ev => m.seq ≤ ev.seq && ev.decisionEnd).isSome = true :=
      List.find?_isSome.2 ⟨e, he, by simp [m.decode_seq e he, hend]⟩
    obtain ⟨ev, hev⟩ := Option.isSome_iff_exists.1 hsome
    exact ⟨ev, List.mem_of_find?_eq_some hev, hev⟩
  obtain ⟨ev, hev, hfind⟩ := hm
  have hsplit : eventsOf (pre ++ m :: post) = eventsOf pre ++ (m.decode ++ eventsOf post) := by
    rw [eventsOf_append]
    rfl
  unfold cutFrom
  rw [hsplit, List.find?_append, hpre, List.find?_append, hfind]
  exact m.decode_seq ev hev

end

/-! ## Nobody is asked when a node is entered -/

section
variable {x : Ext} {fl : Flow}

theorem Open.Unasked.of_tasks {o o' : Open} (h : o.Unasked) (ht : ∀ (k : String) (t : Task), o'.tasks[k]? = some t → o.tasks[k]? = some t) :
    o'.Unasked :=
  fun k t hget => h k t (ht k t hget)

theorem Open.Unasked.settle {w : Work} (h : w.Unasked) (k : String) (o : BranchStatus) : (w.settle k o).Unasked := by
  unfold Work.settle
  cases w.tasks[k]? with
  | none => exact h
  | some t => exact h.of_tasks fun _ _ hget => (get_of_erase hget).2

theorem Open.Unasked.finishTask {w : Work} (h : w.Unasked) (k : String) : (w.finishTask k).Unasked := by
  unfold Work.finishTask
  cases w.tasks[k]? with
  | none => exact h
  | some t => exact Open.Unasked.settle (w := { w with maps := w.countDone t.owner t.node }) h k .completed

/-- Only an interrupt leaves a task waiting for an answer. -/
theorem Open.Unasked.step {s : State} {p : Payload} {base : Nat} (h : s.work.Unasked) (ho : Offer fl base s p)
    (hp : ∀ d, p ≠ .interrupted d) (hb : p.begins = false) : (s.work.step p).Unasked := by
  cases p with
  | interrupted d => exact absurd rfl (hp d)
  | started d => cases hb
  | forked d => cases hb
  | continued d => rw [ho.continued_work]; exact h
  | completed d => exact fun k t hget => by rw [show (s.work.step (.completed d)).tasks = ∅ from rfl, get_empty] at hget; cases hget
  | failed d => exact fun k t hget => by rw [show (s.work.step (.failed d)).tasks = ∅ from rfl, get_empty] at hget; cases hget
  | cancelled d => exact fun k t hget => by rw [show (s.work.step (.cancelled d)).tasks = ∅ from rfl, get_empty] at hget; cases hget
  | scheduled d =>
    intro k t hget
    rcases get_of_insert hget with ⟨-, rfl⟩ | ⟨-, hget⟩
    · exact fun h => by cases h
    · exact h k t hget
  | nodeDone d => exact h.finishTask d.key
  | nodeCancel d => exact h.settle d.key .cancelled
  | nodeFail d =>
    show (if d.willRetry then s.work.setStatus d.key fun t => { t with status := .retrying } else s.work.settle d.key .failed).Unasked
    split
    · unfold Work.setStatus
      cases s.work.tasks[d.key]? with
      | none => exact h
      | some t =>
        intro k t' hget
        rcases get_of_insert hget with ⟨-, rfl⟩ | ⟨-, hget⟩
        · exact fun h => by cases h
        · exact h k t' hget
    · exact h.settle d.key .failed
  | childDone d => exact h.of_tasks fun k t hget => by rwa [show (s.work.step (.childDone d)).tasks = _ from s.work.finishChild_tasks d] at hget
  | _ => exact h

end

section
variable {x : Ext} {fl : Flow} {execID : String}

/-- At the end of a decision that entered a node nobody is asked: nothing was in flight when the node was entered, or only the
other branches that the decision had started. -/
theorem Turn.unasked (ck : Checked fl) {before : List Entry} {s s' : State} {req : Request} {evs : List Event}
    (h : Turn x fl before s req evs s') {ev : Event} (hev : ev ∈ evs) {node : String} (he : ev.enters = some node)
    (hj : ∀ n, fl.node node = some n → n.type ≠ .join) : s'.work.Unasked := by
  obtain ⟨base, hp⟩ := h.said ck
  obtain ⟨pre, post, rfl⟩ := List.append_of_mem hev
  obtain ⟨s₁, -, hrest⟩ := hp.split
  cases hrest with
  | @cons _ s₂ _ _ _ guard ok hpost =>
    obtain ⟨d, hd, rfl⟩ : ∃ d, ev.data = .entered d ∧ d.node = node := by
      unfold Event.enters at he
      cases hd : ev.data with
      | entered d => rw [hd] at he; exact ⟨d, rfl, Option.some.inj he⟩
      | _ => rw [hd] at he; cases he
    have hapt := guard.apt
    rw [hd] at hapt
    obtain ⟨hcause, hwhen⟩ := hapt
    have hentered : s₁.work.Unasked := by
      rcases hwhen with hidle | ⟨-, -, -, -, -, hun⟩ | ⟨n, hn, ht⟩
      · exact fun k t hget => (hidle.no_task hget).elim
      · exact hun
      · exact absurd ht (hj n hn)
    have begun : ∀ {s s' : State} {ev : Event}, s.apply x.quote fl ev = .ok s' → 0 < s'.events := by
      intro s s' ev happ
      obtain ⟨-, t, -, rfl⟩ := State.apply_ok.1 happ
      exact Nat.succ_pos _
    have hafter : s₂.work.Unasked ∧ 0 < s₂.events := by
      refine ⟨?_, begun ok⟩
      rw [State.apply_work ok, hd]
      exact hentered
    refine (hpost.invariant (I := fun s : State => s.work.Unasked ∧ 0 < s.events) (fun s e t hI hg ha => ⟨?_, begun ha⟩) hafter).1
    rw [State.apply_work ha]
    refine hI.1.step hg.promise.offer (fun d' hd' => ?_) (hg.promise.not_begins hI.2)
    have := hg.apt
    rw [hd'] at this
    exact hcause this

theorem Written.reachable (wf : WellFormed fl) {hist : List Message} (h : Written x fl execID hist) {s : State}
    (hs : foldOf x fl execID hist = .ok s) : ∃ log, Reachable x fl s log := by
  induction h generalizing s with
  | nil =>
    cases hs
    exact ⟨[], .new execID⟩
  | @append hist s₀ s' evs seq h hs₀ hm req now hsrc hseg hok hne hseq trace ih =>
    obtain ⟨log, hr⟩ := ih hs₀
    obtain ⟨b, s₁, hp, hset⟩ := h.path wf
    cases hs₀.symm.trans hp.replay
    obtain ⟨b', t, ht, -, hat⟩ := Path.extend wf hp hset hm hsrc hok hne hseq trace
    cases hs.symm.trans ht.replay
    have hr' : Reachable x fl s' log := hr.reload (State.alike_of_marshal hm).symm
    cases hq : req.source with
    | none =>
      exact ⟨_, (@Reachable.step x fl s' log [] evs req now hr' (fun src h => by simp [hq] at h) (fun src h => by simp [hq] at h)
        hok).reload hat⟩
    | some src =>
      obtain ⟨hex, slog, hsr⟩ := hsrc src hq
      refine ⟨_, (@Reachable.step x fl s' log slog evs req now hr' (fun src' h => ?_) (fun src' h => ?_) hok).reload hat⟩
      · cases hq.symm.trans h
        exact hsr
      · cases hq.symm.trans h
        exact hex

/-- The decision of the last message of a history. -/
theorem Written.turn (wf : WellFormed fl) {pre : List Message} {m : Message} (hw : Written x fl execID (pre ++ [m])) {t : State}
    (ht : foldOf x fl execID (pre ++ [m]) = .ok t) :
    ∃ before s req evs s', Turn x fl before s req evs s' ∧ (∃ trace, m.events = evs.map (Event.traced trace)) ∧ s'.Alike t := by
  generalize hh : pre ++ [m] = hist at hw
  cases hw with
  | nil => simp at hh
  | @append hist s₀ s' evs seq h hs₀ hm req now hsrc hseg hok hne hseq trace =>
    obtain ⟨rfl, hlast⟩ := List.append_inj' hh rfl
    obtain rfl : m = ⟨seq, evs.map (Event.traced trace)⟩ := by simpa using hlast
    obtain ⟨b, s₁, hp, hset⟩ := h.path wf
    cases hs₀.symm.trans hp.replay
    obtain ⟨b', t', ht', -, hat⟩ := Path.extend wf hp hset hm hsrc hok hne hseq trace
    cases ht.symm.trans ht'.replay
    obtain ⟨log, hr⟩ := h.reachable wf hs₀
    obtain ⟨line, -, hl, -⟩ := (hr.reload (State.alike_of_marshal hm).symm).lineage wf
    cases hq : req.source with
    | none => exact ⟨line, s', req, evs, _, .own req now hl hq hok, ⟨trace, rfl⟩, hat⟩
    | some src =>
      obtain ⟨hex, slog, hsr⟩ := hsrc src hq
      obtain ⟨sline, -, hsl, -⟩ := hsr.lineage wf
      have habs : s'.exists = false := by
        by_contra he
        exact hne (Request.perform_joined (by simpa using he) hq hok).1
      exact ⟨sline, s', req, evs, _, .fork req now hl habs hq hsl hex hok hne, ⟨trace, rfl⟩, hat⟩

end

/-! ## The node's own work -/

/-- What `node` has in flight. -/
inductive Open.Has (o : Open) (node : String) : Prop
  | fan {f : Fan} (h : o.fans[node]? = some f)
  | map {r : MapWork} (h : o.maps[node]? = some r)
  | await {a : AwaitState} (h : o.awaits[node]? = some a)
  | task {k : String} {t : Task} (h : o.tasks[k]? = some t) (hn : t.node = node)
  | child {k : String} {ch : ChildState} (h : o.children[k]? = some ch) (hn : ch.nodeOf k = node)

/-- The events `evs` of a fork of `src` dispatch the work of `node`: a task or an item, a child, its await, or every branch that is
pending. -/
inductive Reruns (src : State) (node : String) (evs : List Event) : Prop
  | task {ev : Event} {d : Event.Scheduled} (h : ev ∈ evs) (hd : ev.data = .scheduled d) (hn : d.node = node)
  | child {ev : Event} {d : Event.Child} (h : ev ∈ evs) (hd : ev.data = .child d) (hn : d.node = node)
  | await {ev : Event} {d : Event.Await} (h : ev ∈ evs) (hd : ev.data = .await d) (hn : d.node = node)
  | fan {f : Fan} (hf : src.fans[node]? = some f) (some_pending : ∃ b : String, f.branches[b]? = some .pending)
      (all : ∀ b : String, f.branches[b]? = some .pending →
        (∃ ev ∈ evs, ∃ d, ev.data = .scheduled d ∧ d.node = b ∧ d.owner = node) ∨
          ∃ ev ∈ evs, ∃ d, ev.data = .child d ∧ d.node = b ∧ d.owner = node)

section
variable {x : Ext} {fl : Flow} {src s' : State} {node : String} {evs : List Event} {writes : SMap Json}

theorem exists_get_of_size {V : Type} {m : SMap V} (h : 0 < m.size) : ∃ (k : String) (v : V), m[k]? = some v := by
  by_contra hno
  push Not at hno
  have hempty : m = ∅ := eq_empty_of_get fun k => Option.eq_none_iff_forall_not_mem.2 fun v hv => hno k v hv
  rw [hempty] at h
  cases h

theorem Progress.at_fan {w : Work} {f : Fan} (hp : Progress fl w) (hf : w.fans[node]? = some f) :
    w.FanOpen fl node f [] ∧ ∃ b ∈ fl.waitFor f.join, f.branches[b]? = some .pending := by
  have no : w.fans = ∅ → False := by
    intro he
    rw [he, get_empty] at hf
    cases hf
  cases hp with
  | task h => exact (no h.rest.fans).elim
  | await h _ => exact (no h.rest.fans).elim
  | child h => exact (no h.rest.fans).elim
  | map h _ => exact (no h.rest.fans).elim
  | fan h waits =>
    have hget := hf
    rw [h.fans] at hget
    obtain ⟨rfl, rfl⟩ := get_of_single hget
    exact ⟨h, waits⟩

theorem State.has_of_isOpen {s : State} (h : s.isOpen node = true) : s.work.Has node := by
  simp only [State.isOpen, Bool.or_eq_true, List.any_eq_true, beq_iff_eq, Std.ExtTreeMap.contains_iff_mem] at h
  rcases h with (((h | h) | h) | ⟨⟨k, t⟩, h, hn⟩) | ⟨⟨k, ch⟩, h, hn⟩
  · obtain ⟨f, hf⟩ := get_of_mem h
    exact .fan hf
  · obtain ⟨r, hr⟩ := get_of_mem h
    have hget := State.work_maps_of hr
    exact .map hget
  · obtain ⟨a, ha⟩ := get_of_mem h
    exact .await ha
  · exact .task (Std.ExtTreeMap.mem_toList_iff_getElem?_eq_some.1 h) hn
  · exact .child (Std.ExtTreeMap.mem_toList_iff_getElem?_eq_some.1 h) hn

theorem mem_of_count {f : Event → Option String} {k : String} (h : (evs.filterMap f).count k = 1) : ∃ ev ∈ evs, f ev = some k :=
  List.mem_filterMap.1 (List.count_pos_iff.1 (h ▸ Nat.one_pos))

/-- A task that nobody is asked about is scheduled by an event for its node and owner. -/
theorem Redispatched.schedules (h : Redispatched x fl src writes evs s') (hun : src.work.Unasked) {k : String} {t : Task}
    (ht : src.tasks[k]? = some t) : ∃ ev ∈ evs, ∃ d, ev.data = .scheduled d ∧ d.node = t.node ∧ d.owner = t.owner := by
  obtain ⟨ev, hev, hkey⟩ := mem_of_count (h.tasks k t ht (hun k t ht)).1
  have hre := h.resends ev hev
  unfold Event.reschedules at hkey
  unfold Event.Resends at hre
  cases hd : ev.data with
  | scheduled d =>
    rw [hd] at hkey hre
    obtain ⟨t', ht', hof⟩ := hre
    rw [Option.some.inj hkey] at ht'
    cases ht.symm.trans ht'
    exact ⟨ev, hev, d, hd, hof.node, hof.owner⟩
  | _ => rw [hd] at hkey; cases hkey

theorem Redispatched.starts (h : Redispatched x fl src writes evs s') {k : String} {ch : ChildState}
    (hch : src.children[k]? = some ch) : ∃ ev ∈ evs, ∃ d, ev.data = .child d ∧ d.node = ch.node ∧ d.owner = ch.owner := by
  obtain ⟨ev, hev, hkey⟩ := mem_of_count (h.children k ch hch).1
  have hre := h.resends ev hev
  unfold Event.restarts at hkey
  unfold Event.Resends at hre
  cases hd : ev.data with
  | child d =>
    rw [hd] at hkey hre
    obtain ⟨ch', hch', hnode, howner, -⟩ := hre
    rw [Option.some.inj hkey] at hch'
    cases hch.symm.trans hch'
    exact ⟨ev, hev, d, hd, hnode.symm, howner.symm⟩
  | _ => rw [hd] at hkey; cases hkey

theorem Redispatched.reruns (wf : WellFormed fl) (h : Redispatched x fl src writes evs s') (hun : src.work.Unasked)
    (hp : Progress fl src.work) (ho : src.work.Has node) : Reruns src node evs := by
  cases ho with
  | await ha =>
    obtain ⟨ev, hev, hkey⟩ := mem_of_count (h.awaits node _ ha).1
    unfold Event.rearms at hkey
    cases hd : ev.data with
    | await d => rw [hd] at hkey; exact .await hev hd (Option.some.inj hkey)
    | _ => rw [hd] at hkey; cases hkey
  | task ht hn =>
    obtain ⟨ev, hev, d, hd, hnode, -⟩ := h.schedules hun ht
    exact .task hev hd (hnode.trans hn)
  | child hch hn =>
    obtain ⟨ev, hev, d, hd, hnode, -⟩ := h.starts hch
    have := (hp.child_node wf hch).2.1
    exact .child hev hd (hnode.trans (this.symm.trans hn))
  | @fan f hf =>
    obtain ⟨hfan, hwaits⟩ := hp.at_fan hf
    refine .fan hf (hwaits.imp fun b hb => hb.2) fun b hb => ?_
    rcases hfan.pending hb (by simp) with hb | hb
    · obtain ⟨t, ht⟩ := get_of_mem hb
      obtain ⟨howner, hnode, -⟩ := hfan.task ht
      obtain ⟨ev, hev, d, hd, hdn, hdo⟩ := h.schedules hun ht
      exact .inl ⟨ev, hev, d, hd, hdn.trans hnode, hdo.trans howner⟩
    · obtain ⟨ch, hch⟩ := get_of_mem hb
      obtain ⟨howner, hnode, -⟩ := hfan.child hch
      obtain ⟨ev, hev, d, hd, hdn, hdo⟩ := h.starts hch
      exact .inr ⟨ev, hev, d, hd, hdn.trans hnode, hdo.trans howner⟩
  | @map r hr =>
    -- an open map has an item in flight
    obtain ⟨hmap, hbusy⟩ := hp.at_map hr
    have hcount := hmap.count
    by_cases htasks : 0 < src.work.tasks.size
    · obtain ⟨k, t, ht⟩ := exists_get_of_size htasks
      obtain ⟨ev, hev, d, hd, hdn, -⟩ := h.schedules hun ht
      exact .task hev hd (hdn.trans (hmap.task ht).2.1)
    · obtain ⟨k, ch, hch⟩ := exists_get_of_size (m := src.work.children) (by omega)
      obtain ⟨ev, hev, d, hd, hdn, -⟩ := h.starts hch
      exact .child hev hd (hdn.trans (hmap.child hch).2.1)

theorem Open.Idle.not_has {o : Open} (h : o.Idle) : ¬ o.Has node := by
  intro ho
  cases ho with
  | fan hf => rw [h.fans, get_empty] at hf; cases hf
  | map hr => rw [h.maps, get_empty] at hr; cases hr
  | await ha => exact h.no_await ha
  | task ht _ => exact h.no_task ht
  | child hch _ => exact h.no_child hch

theorem Progress.has_type {w : Work} (wf : WellFormed fl) (hp : Progress fl w) (h : w.Has node) :
    ∃ n, fl.node node = some n ∧ n.type ≠ .join := by
  have ne : ∀ {k : String} {nd : Node} {ty : NodeType}, fl.node k = some nd → nd.type = ty → ty ≠ .join → k = node →
      ∃ n, fl.node node = some n ∧ n.type ≠ .join := by
    rintro k nd ty hnd rfl hty rfl
    exact ⟨nd, hnd, hty⟩
  cases h with
  | fan hf =>
    obtain ⟨fn, hfn, hft, -⟩ := (hp.at_fan hf).1.type
    exact ne hfn hft (by decide) rfl
  | map hr =>
    obtain ⟨nd, hnd, hty⟩ := (hp.at_map hr).1.type
    exact ne hnd hty (by decide) rfl
  | await ha =>
    obtain ⟨nd, hnd, hty, -⟩ := (hp.one_await ha).type
    exact ne hnd hty (by decide) rfl
  | @task k t ht hn =>
    cases hp with
    | task h =>
      rw [h.tasks] at ht
      obtain ⟨rfl, rfl⟩ := get_of_single ht
      obtain ⟨nd, hnd, hty⟩ := h.type
      exact ne hnd hty (by decide) (h.node.symm.trans hn)
    | await h _ => exact (h.rest.no_task ht).elim
    | child h => exact (h.rest.no_task ht).elim
    | fan h _ =>
      obtain ⟨-, hnode, -, -, nd, hnd, hty⟩ := h.task ht
      exact ne hnd hty (by decide) (hnode.symm.trans hn)
    | map h _ =>
      obtain ⟨nd, hnd, hty⟩ := h.type
      exact ne hnd hty (by decide) ((h.task ht).2.1.symm.trans hn)
  | @child k ch hch hn =>
    rw [(hp.child_node wf hch).2.1] at hn
    cases hp with
    | task h => exact (h.rest.no_child hch).elim
    | await h _ => exact (h.rest.no_child hch).elim
    | child h =>
      rw [h.children] at hch
      obtain ⟨rfl, rfl⟩ := get_of_single hch
      obtain ⟨nd, hnd, hty⟩ := h.type
      exact ne hnd hty (by decide) (h.node.symm.trans hn)
    | fan h _ =>
      obtain ⟨-, hnode, -, -, nd, hnd, hty⟩ := h.child hch
      exact ne hnd hty (by decide) (hnode.symm.trans hn)
    | map h _ =>
      obtain ⟨nd, hnd, hty⟩ := h.type
      exact ne hnd hty (by decide) ((h.child hch).2.1.symm.trans hn)

end

/-- What is read of an event of a message. -/
theorem Message.decode_of_mem {m : Message} {ev : Event} (h : ev ∈ m.events) : ∃ e ∈ m.decode, e.data = ev.data := by
  have hmark : ∀ {l : List Event}, ∀ e ∈ l, ∃ e' ∈ markEnd l, e'.data = e.data := by
    intro l
    induction l with
    | nil => exact fun _ he => (List.not_mem_nil he).elim
    | cons a l ih =>
      intro e he
      cases l with
      | nil =>
        obtain rfl : e = a := by simpa using he
        exact ⟨_, List.mem_singleton_self _, rfl⟩
      | cons b l =>
        rcases List.mem_cons.1 he with rfl | he
        · exact ⟨e, List.mem_cons_self, rfl⟩
        · obtain ⟨e', he', hd⟩ := ih e he
          exact ⟨e', List.mem_cons_of_mem _ he', hd⟩
  obtain ⟨e, he, hd⟩ := hmark _ (List.mem_map_of_mem (f := fun ev : Event => { ev with seq := m.seq }) h)
  exact ⟨e, he, hd⟩

/-- **Rerun runs the node again.** The history is read from `σ`, the state at the cut from `σ'` and the fork's source from `σ''`,
each of which may have grown since; no decision of the history that was read enters the node after the cut. -/
theorem rerun_dispatches {x : Ext} {fl : Flow} (hv : validate x fl = []) {execID node : String} {hist more later : List Message}
    {σ σ' σ'' : Store} (hw : Written x fl execID hist) (hσ : Keeps x fl execID hist σ)
    (hw' : Written x fl execID (hist ++ more)) (hσ' : Keeps x fl execID (hist ++ more) σ')
    (hw'' : Written x fl execID (hist ++ later)) (hσ'' : Keeps x fl execID (hist ++ later) σ'')
    {cut : Nat} (hne : hist ≠ []) (hok : rerun x fl σ σ' execID node = .ok cut) :
    (∀ m ∈ hist, cut < m.seq → ∀ ev ∈ m.events, ev.enters ≠ some node) ∧
    ∀ src, σ''.forkSource x fl execID cut = .ok src → ∀ (forkID cmdID : String) (writes : SMap Json) (now : Time) (evs : List Event),
      ((Ask.fork src execID cut cmdID writes).decide x fl (State.new forkID) now).result = .ok evs →
      ((Ask.fork src execID cut cmdID writes).decide x fl (State.new forkID) now).state.status.terminal = false →
      Reruns src node evs := by
  have ck := checked_of_validate hv
  have wf := ck.toWellFormed
  simp only [rerun, Store.clientHistory, hσ.history wf hw hne, Except.mapError] at hok
  split at hok
  · cases hok
  · rename_i hran
    obtain ⟨ev, hev, henters, hseq⟩ := lastEntry_mem hran
    obtain ⟨m, hm, hevm⟩ := List.mem_flatMap.1 hev
    have hat : lastEntry (eventsOf hist) node = m.seq := hseq.symm.trans (m.decode_seq ev hevm)
    obtain ⟨pre, post, rfl⟩ := List.append_of_mem hm
    rw [hat, hw.cut wf (List.ne_nil_of_mem hevm)] at hok
    split at hok
    · cases hok
    · rename_i st hst
      split at hok
      · rename_i hopen
        cases hok
        have hwm : Written x fl execID (pre ++ [m]) := hw.of_prefix ⟨post, by simp⟩
        obtain ⟨b, s, hs, hset⟩ := hwm.settled wf (by simp)
        -- what is read at the cut, by the client now and by the engine later, is the fold up to it
        have hread : ∀ {rest : List Message} {τ : Store} {src : State}, Written x fl execID (pre ++ m :: post ++ rest) →
            Keeps x fl execID (pre ++ m :: post ++ rest) τ → τ.forkSource x fl execID m.seq = .ok src → s.Alike src := by
          intro rest τ src hw hτ hsrc
          rw [List.append_assoc, List.cons_append] at hw hτ
          obtain ⟨s₀, hs₀, hmarshal⟩ := hτ.source wf hw hsrc
          cases hs.replay.symm.trans hs₀
          exact (State.alike_of_marshal hmarshal).symm
        have hhas : s.work.Has node := by
          rw [(hread hw' hσ' (Store.stateAt_ok hst)).work]
          exact State.has_of_isOpen hopen
        obtain ⟨hu, hr⟩ : Unfinished fl b s ∧ s.work.Rested fl b := hset.resolve_left fun he => he.idle.not_has hhas
        obtain ⟨n, hn, hjoin⟩ := hr.progress.has_type wf hhas
        have hun : s.work.Unasked := by
          obtain ⟨before, s₁, req, evs, s₂, hturn, ⟨trace, htrace⟩, halike⟩ := hwm.turn wf hs.replay
          have hdecode : ev ∈ Message.decode ⟨m.seq, evs.map (Event.traced trace)⟩ := by
            rw [← htrace]
            exact hevm
          obtain ⟨e, he, hstamp⟩ := Message.mem_decode hdecode
          have hsame : e.enters = some node := by
            rw [← henters]
            simp only [Event.enters, hstamp.data]
          rw [← halike.work]
          refine hturn.unasked ck he hsame fun n' hn' => ?_
          cases hn.symm.trans hn'
          exact hjoin
        refine ⟨fun k hk hlt e he henter => ?_, fun src hsrc forkID cmdID writes now evs hdec hlive => ?_⟩
        · obtain ⟨e', he', hdata⟩ := Message.decode_of_mem he
          obtain ⟨base, send, hp, -⟩ := hw.path wf
          have hsame : e'.enters = some node := by
            rw [← henter]
            simp only [Event.enters, hdata]
          have hle := le_lastEntry (Path.chronicle hp).sorted (List.mem_flatMap.2 ⟨k, hk, he'⟩) hsame
          rw [hat, k.decode_seq e' he'] at hle
          omega
        · have halike := hread hw'' hσ'' hsrc
          obtain ⟨hu', hr'⟩ : Unfinished fl b src ∧ src.work.Rested fl b :=
            (hset.alike halike).resolve_left fun he => he.idle.not_has (halike.work ▸ hhas)
          exact (fork_reforking wf (State.absent_new forkID) hu' hr' hdec hlive).reruns wf (halike.work ▸ hun) hr'.progress
            (halike.work ▸ hhas)
      · cases hok

/-! The review that was continued as new, forked where its draft was entered. -/

def rerunSource : State := (continuedStore.forkSource plainExt oneTask "r1" 1).toOption.getD (State.new "r1")

def rerunReview : Outcome := (Ask.fork rerunSource "r1" 1 "fork.r2" ∅).decide plainExt oneTask (State.new "r2") 5

theorem rerunReview_reruns : (rerun plainExt oneTask continuedStore continuedStore "r1" "draft").toOption = some 1 ∧
    Reruns rerunSource "draft" rerunReview.events := by
  have heval : (rerun plainExt oneTask continuedStore continuedStore "r1" "draft").toOption = some 1 ∧
      (continuedStore.forkSource plainExt oneTask "r1" 1).isOk = true ∧ rerunReview.result.isOk = true ∧
      rerunReview.state.status.terminal = false := by decide +kernel
  obtain ⟨hcut, hsrc, hok, hlive⟩ := heval
  refine ⟨hcut, ?_⟩
  have hkeeps : Keeps plainExt oneTask "r1" [startedMessage, continuedMessage] continuedStore :=
    .live ⟨⟨1, rfl, .inr (List.any_eq_true.1 continuedReview_evaluates.2.2.2.2.2.2)⟩, continuedStore_archives, fun _ h => by cases h⟩
  have hrerun : rerun plainExt oneTask continuedStore continuedStore "r1" "draft" = .ok 1 := by
    revert hcut
    cases rerun plainExt oneTask continuedStore continuedStore "r1" "draft" with
    | error e => exact fun h => by cases h
    | ok q => exact fun h => congrArg Except.ok (Option.some.inj h)
  have hsource : continuedStore.forkSource plainExt oneTask "r1" 1 = .ok rerunSource := by
    unfold rerunSource
    revert hsrc
    cases continuedStore.forkSource plainExt oneTask "r1" 1 with
    | error e => exact fun h => by cases h
    | ok q => exact fun _ => rfl
  have hw := continuedReview_written
  unfold rerunReview at hok hlive ⊢
  exact (@rerun_dispatches plainExt oneTask oneTask_valid "r1" "draft" [startedMessage, continuedMessage] [] [] continuedStore
    continuedStore continuedStore hw hkeeps hw hkeeps hw hkeeps 1 (by simp) hrerun).2 rerunSource hsource "r2" "fork.r2" ∅ 5
    _ (Outcome.result_events hok) hlive

end Packtrail
