import Packtrail.Modes

/-
# The decider, reacting to commands

Continues `Packtrail.Walk` with the programs that settle tasks and children and let their owner react.
Each is specified from a state that has one thing in progress; it ends the execution or leaves one
thing in progress again. The specifications of `complete`, `timer` and the like also say that what the
command named is over when it took effect.
-/

namespace Packtrail

open Emitter

section
variable {c : Ctx} {base : Nat} {s : State}

/-- What every promised event of an existing execution preserves holds at the end. -/
theorem Holds.keep {α : Type} {m : DecM α} {Q : α → State → Prop} {I : Work → Prop}
    (step : ∀ {s : State} {p : Payload}, I s.work → Offer c.fl base s p → p.begins = false → I (s.work.step p))
    (hb : 0 < s.events) (hI : I s.work) (h : Holds c base m s Q) : Holds c base m s fun a s' => Q a s' ∧ I s'.work := by
  have hkeep : ∀ s e s', (0 < s.events ∧ I s.work) → Promise c.fl base s e → c.apply s e = .ok s' →
      0 < s'.events ∧ I s'.work := by
    rintro s e s' ⟨hev, hI⟩ hp happ
    obtain ⟨-, s₁, -, rfl⟩ := State.apply_ok.1 happ
    have hnot : e.data.begins = false := by
      cases hbeg : e.data.begins with
      | false => rfl
      | true => exact absurd (hp.begins.1 hbeg) hev.ne'
    refine ⟨Nat.succ_pos _, ?_⟩
    rw [State.apply_work happ]
    exact step hI hp.offer hnot
  exact (Runs.keep hkeep ⟨hb, hI⟩ h).mono fun a s' ⟨hq, _, hi⟩ => ⟨hq, hi⟩

variable {n : Node} {V : Type} {fan k node owner : String} {f : Fan} {r : MapWork} {lost : Nat} {t : Task} {m : MapRun}

theorem nodeOf_runs {id : String} {α : Type} {f : Node → DecM α} {Q : α → State → Prop}
    (hn : c.fl.node id = some n) (h : Holds c base (f n) s Q) : Holds c base (nodeOf c id >>= f) s Q := by
  unfold nodeOf
  rw [hn]
  exact h

/-! ## Cancelling the tasks of an owner -/

/-- Every task of `w` was cancelled, and nothing else changed but the outcomes of branches. -/
structure Work.Drained (w w' : Work) : Prop where
  tasks : w'.tasks = ∅
  fans : ∀ k : String, k ∈ w'.fans ↔ k ∈ w.fans
  maps : w'.maps = w.maps
  awaits : w'.awaits = w.awaits
  children : w'.children = w.children

theorem mem_of_get {m : SMap V} {v : V} (h : m[k]? = some v) : k ∈ m :=
  Std.ExtTreeMap.mem_iff_isSome_getElem?.2 (by rw [h]; rfl)

theorem get_of_mem {m : SMap V} (h : k ∈ m) : ∃ v, m[k]? = some v :=
  Option.isSome_iff_exists.1 (Std.ExtTreeMap.mem_iff_isSome_getElem?.1 h)

theorem settleFans_mem {w : Work} {o : BranchStatus} :
    k ∈ w.settleFans owner node o ↔ k ∈ w.fans := by
  unfold Work.settleFans
  cases hf : w.fans[owner]? with
  | none => exact Iff.rfl
  | some f =>
    simp only [Std.ExtTreeMap.mem_insert, Std.LawfulEqCmp.compare_eq_iff_eq]
    refine ⟨fun h => h.elim (fun he => ?_) id, .inr⟩
    rw [← he]
    exact mem_of_get hf

theorem cancelTasks_runs {reason : String} : ∀ {keys : List String} {s : State}, Unfinished c.fl base s →
    keys.Nodup → (∀ k : String, k ∈ s.tasks ↔ k ∈ keys) →
    (∀ (k : String) (t : Task), s.tasks[k]? = some t → t.owner = owner) →
    Holds c base (cancelTasks c owner reason keys) s fun _ s' => Unfinished c.fl base s' ∧ s.work.Drained s'.work
  | [], s, hu, _, hkeys, _ => by
    refine Runs.pure ⟨hu, eq_empty_of_get fun k => ?_, fun _ => Iff.rfl, rfl, rfl, rfl⟩
    cases hget : s.work.tasks[k]? with
    | none => rfl
    | some t => exact absurd ((hkeys k).1 (mem_of_get hget)) (by simp)
  | key :: keys, s, hu, hnd, hkeys, howner => by
    obtain ⟨t, ht⟩ := get_of_mem ((hkeys key).2 List.mem_cons_self)
    rw [List.nodup_cons] at hnd
    unfold cancelTasks
    refine Runs.getSt ?_
    simp only [ht, howner key t ht, if_true]
    refine emits_bind hu rfl ⟨t, ht⟩ ⟨_, rfl⟩ fun s₁ hu₁ hw₁ => ?_
    have hset : s₁.work = { s.work with tasks := s.work.tasks.erase key, fans := s.work.settleFans t.owner t.node .cancelled } := by
      rw [hw₁]; exact Work.settle_eq ht _
    have htasks : s₁.tasks = s.tasks.erase key := by
      show s₁.work.tasks = _
      rw [hset]
      rfl
    refine (cancelTasks_runs hu₁ hnd.2 (fun k => ?_) fun k t' hget => ?_).mono fun _ s' ⟨hu', hd⟩ => ⟨hu', ?_⟩
    · rw [htasks, Std.ExtTreeMap.mem_erase, hkeys k, List.mem_cons]
      simp only [ne_eq, Std.LawfulEqCmp.compare_eq_iff_eq]
      constructor
      · rintro ⟨hne, rfl | hk⟩
        · exact absurd rfl hne
        · exact hk
      · intro hk
        exact ⟨fun he => hnd.1 (he ▸ hk), .inr hk⟩
    · rw [htasks] at hget
      exact howner k t' (get_of_erase hget).2
    · refine ⟨hd.tasks, fun k => (hd.fans k).trans ?_, hd.maps.trans ?_, hd.awaits.trans ?_, hd.children.trans ?_⟩
      · rw [hset]; exact settleFans_mem
      · rw [hset]
      · rw [hset]
      · rw [hset]

theorem filter_owner_empty {m : SMap ChildState}
    (h : ∀ (k : String) (ch : ChildState), m[k]? = some ch → ch.owner = owner) :
    (m.filter fun _ ch => ch.owner ≠ owner) = ∅ := by
  refine eq_empty_of_get fun k => ?_
  cases hget : (m.filter fun _ ch => ch.owner ≠ owner)[k]? with
  | none => rfl
  | some ch =>
    obtain ⟨hk, hne⟩ := get_of_filter hget
    exact absurd (h k ch hk) (by simpa using hne)

theorem mem_single {a : String} {v : V} : a ∈ single k v ↔ a = k := by
  simp only [single, Std.ExtTreeMap.mem_insert, Std.LawfulEqCmp.compare_eq_iff_eq, Std.ExtTreeMap.not_mem_empty, or_false]
  exact eq_comm

theorem erase_eq_empty {m : SMap V} {a : String} (h : ∀ k : String, k ∈ m → k = a) : m.erase a = ∅ := by
  refine eq_empty_of_get fun k => ?_
  cases hget : (m.erase a)[k]? with
  | none => rfl
  | some v =>
    obtain ⟨hne, hk⟩ := get_of_erase hget
    exact absurd (h k (mem_of_get hk)).symm hne

/-! ## Joins -/

theorem closeJoin_runs (wf : WellFormed c.fl) {join : Node} (hu : Unfinished c.fl base s)
    (hf : s.work.FanOpen c.fl fan f []) (hj : c.fl.node join.id = some join) (ht : join.type = .join)
    (succeeded failed : List String) (ok : Bool) :
    Holds c base (closeJoin c fan join succeeded failed ok) s fun _ => Settled c.fl base := by
  unfold closeJoin
  refine Runs.getSt ?_
  have hkeys : ∀ k : String, k ∈ s.tasks ↔ k ∈ s.tasks.keys := fun k => Std.ExtTreeMap.mem_keys.symm
  refine (cancelTasks_runs hu Std.ExtTreeMap.nodup_keys hkeys fun k t hget => (hf.task hget).1).bind
    fun _ s₁ ⟨hu₁, hd⟩ => ?_
  refine Runs.getSt (emits_bind hu₁ rfl trivial ⟨_, rfl⟩ fun s₂ hu₂ hw₂ => ?_)
  have hfans : ∀ k : String, k ∈ s₂.work.fans ↔ k = fan := by
    intro k
    rw [hw₂]
    exact (hd.fans k).trans (by rw [hf.fans]; exact mem_single)
  have hchildren : s₂.work.children = s.work.children := by rw [hw₂]; exact hd.children
  obtain ⟨f₂, hf₂⟩ := get_of_mem ((hfans fan).2 rfl)
  -- cancelling the tasks left the children as they were when they were listed
  have hlisted : ownedChildren s fan = ownedChildren s₂ fan := by
    unfold ownedChildren
    rw [show s₂.children = s.children from hchildren]
  have hopen : (s₂.fans[fan]?).isSome = true := by rw [show s₂.fans[fan]? = some f₂ from hf₂]; rfl
  refine emits_bind hu₂ rfl ⟨hopen, hlisted⟩ ⟨_, rfl⟩ fun s₃ hu₃ hw₃ => ?_
  -- the fan-out is closed with all its tasks and children
  have hidle : s₃.work.Idle := by
    rw [hw₃]
    simp only [Work.step, Work.closeFan, hf₂]
    refine ⟨?_, erase_eq_empty fun k hk => (hfans k).1 hk, ?_, ?_, ?_⟩
    · rw [hw₂]; exact hd.tasks
    · rw [hw₂]; exact hd.maps.trans hf.rest.maps
    · rw [hw₂]; exact hd.awaits.trans hf.rest.awaits
    · show s₂.work.dropChildren fan = ∅
      unfold Work.dropChildren
      rw [hchildren]
      exact filter_owner_empty fun k ch hget => (hf.child hget).1
  split
  · exact advance_next wf (enter_enters wf) hj (by simp [ht]) ⟨hu₃, hidle⟩ (Nat.zero_le _)
  · split
    · rename_i hne
      exact enter_enters wf ⟨hu₃, hidle⟩ (Nat.zero_le _) (wf.onFailure hj hne)
    · exact fail_or hu₃.live _ _ _

/-- Without a verdict some awaited branch is still pending. -/
theorem tally_pending {kind : JoinKind} {waits : List String} (h : (tally kind waits f).verdict = none) :
    ∃ b ∈ waits, branchOutcome f b = .pending := by
  by_contra hall
  have hnone : (waits.filter fun b => branchOutcome f b = .pending) = [] := by
    rw [List.filter_eq_nil_iff]
    intro b hb hp
    exact hall ⟨b, hb, by simpa using hp⟩
  have hlen : (waits.filter fun b => branchOutcome f b = .pending).length = 0 := by rw [hnone]; rfl
  have hsplit : ∀ need got : Int, (if need ≤ got then some true else if need ≤ got + (0 : Nat) then none else some false) =
      none → False := by
    intro need got hv
    split at hv
    · cases hv
    · split at hv
      · omega
      · cases hv
  unfold tally at h
  simp only [hlen] at h
  cases kind with
  | min q => cases h
  | any => exact hsplit _ _ h
  | all => exact hsplit _ _ h
  | quorum q => exact hsplit _ _ h
  | unknown u => exact hsplit _ _ h

theorem evalJoin_runs (wf : WellFormed c.fl) (hu : Unfinished c.fl base s)
    (hf : s.work.FanOpen c.fl fan f []) (hd : s.work.TasksDispatched c.fl base fun _ => False) :
    Holds c base (evalJoin c fan) s fun _ => Settled c.fl base := by
  obtain ⟨fn, hfn, hft, hbr⟩ := hf.type
  obtain rfl : fn.id = fan := Flow.node_id hfn
  obtain ⟨jn, hjo, hjn, hjt, -, hsub⟩ := (wf.fan hfn hft).join
  have hjoin : f.join = jn.id := Option.some.inj (hf.join.symm.trans hjo)
  have hget : s.fans[fn.id]? = some f := by
    show s.work.fans[fn.id]? = some f
    rw [hf.fans, get_single_self]
  unfold evalJoin
  refine Runs.getSt ?_
  simp only [hget, hjoin, hjn]
  split
  · rename_i hnone
    obtain ⟨b, hb, hp⟩ := tally_pending hnone
    obtain ⟨st, hst⟩ := get_of_mem ((hbr b).2 (hsub b hb))
    have hpend : f.branches[b]? = some .pending := by
      unfold branchOutcome at hp
      rw [Std.ExtTreeMap.getD_eq_getD_getElem?, hst] at hp
      rw [hst]
      exact congrArg some hp
    refine Runs.pure (.inr ⟨hu, .fan hf ⟨b, ?_, hpend⟩, hd, fun k a hget => ?_⟩)
    · rw [hjoin]; exact hb
    · exact (hf.rest.no_await hget).elim
  · exact closeJoin_runs wf hu hf hjn hjt _ _ _

/-! ## Maps that fail -/

theorem abortMap_runs (wf : WellFormed c.fl) (hn : c.fl.node n.id = some n)
    (hf : n.onFailure ≠ "") (hu : Unfinished c.fl base s) (hm : s.work.MapOpen c.fl n.id r lost) (index : Nat) :
    Holds c base (abortMap c n index) s fun _ => Settled c.fl base := by
  unfold abortMap
  refine Runs.getSt ?_
  have hkeys : ∀ k : String, k ∈ s.tasks ↔ k ∈ s.tasks.keys := fun k => Std.ExtTreeMap.mem_keys.symm
  refine (cancelTasks_runs hu Std.ExtTreeMap.nodup_keys hkeys fun k t hget => (hm.task hget).1).bind
    fun _ s₁ ⟨hu₁, hd⟩ => ?_
  refine Runs.getSt (emits_bind hu₁ rfl rfl ⟨_, rfl⟩ fun s₂ hu₂ hw₂ => ?_)
  refine enter_enters wf ⟨hu₂, ?_⟩ (Nat.zero_le _) (wf.onFailure hn hf)
  rw [hw₂]
  refine ⟨hd.tasks, ?_, ?_, hd.awaits.trans hm.rest.awaits, ?_⟩
  · refine eq_empty_of_get fun k => ?_
    cases hget : s₁.work.fans[k]? with
    | none => exact hget
    | some f =>
      have := (hd.fans k).1 (mem_of_get hget)
      rw [show s.work.fans = ∅ from hm.rest.fans] at this
      exact absurd this Std.ExtTreeMap.not_mem_empty
  · show s₁.work.maps.erase n.id = ∅
    rw [hd.maps, hm.maps, single_erase]
  · show s₁.work.dropChildren n.id = ∅
    unfold Work.dropChildren
    rw [hd.children]
    exact filter_owner_empty fun k ch hget => (hm.child hget).1

/-! ## The owner of a settled instance -/

theorem Open.Idle.no_fan (h : s.work.Idle) (k : String) : s.fans[k]? = none := by
  show s.work.fans[k]? = none
  rw [h.fans, get_empty]

theorem no_map_of_empty (h : s.work.maps = ∅) (k : String) : s.maps[k]? = none := by
  have := s.work_maps_get k
  rw [h, get_empty] at this
  exact Option.map_eq_none_iff.1 this.symm

theorem Open.FanOpen.here (h : s.work.FanOpen c.fl fan f []) : (s.fans[fan]?).isSome = true := by
  show (s.work.fans[fan]?).isSome = true
  rw [h.fans, get_single_self]
  rfl

theorem Open.MapOpen.here {m : String} (h : s.work.MapOpen c.fl m r lost) :
    s.fans[m]? = none ∧ (s.maps[m]?).isSome = true := by
  obtain ⟨run, hrun, -⟩ := State.maps_of_work h.maps
  refine ⟨?_, by rw [hrun]; rfl⟩
  show s.work.fans[m]? = none
  rw [show s.work.fans = ∅ from h.rest.fans, get_empty]

/-- The branches of the source on who owns a settled instance. -/
theorem Freed.react (h : Freed c.fl s.work owner node lost) {J M A : DecM Unit}
    {G : State → Event → Prop} {B : Err → Prop} {Q : Unit → State → Prop} {P : Prop} [Decidable P] (hP : P ↔ node = owner)
    (hj : ∀ f, s.work.FanOpen c.fl owner f [] → Runs c.apply G B J s Q)
    (hm : ∀ r, s.work.MapOpen c.fl owner r lost → node = owner → Runs c.apply G B M s Q)
    (ha : s.work.Idle → (∃ nd, c.fl.node node = some nd ∧ nd.type ≠ .fanout) → Runs c.apply G B A s Q) :
    Runs c.apply G B (if (s.fans[owner]?).isSome then J else if (s.maps[owner]?).isSome ∧ P then M else A) s Q := by
  cases h with
  | alone h ht =>
    rw [h.no_fan, no_map_of_empty h.maps, if_neg (by simp), if_neg (by simp)]
    exact ha h ht
  | branch h =>
    rw [if_pos h.here]
    exact hj _ h
  | item h hn =>
    rw [h.here.1, if_neg (by simp), if_pos ⟨h.here.2, hP.2 hn⟩]
    exact hm _ h hn

theorem afterSettle_runs (wf : WellFormed c.fl) {dyn : String} (hu : Unfinished c.fl base s)
    (hn : c.fl.node t.node = some n) (hf : Freed c.fl s.work t.owner t.node 0)
    (hd : s.work.TasksDispatched c.fl base fun _ => False)
    (hdyn : dyn ≠ "" → t.owner = "" ∧ n.allowsDynamic dyn = true) :
    Holds c base (afterSettle c t n dyn) s fun _ => Settled c.fl base := by
  have hid : n.id = t.node := Flow.node_id hn
  unfold afterSettle
  refine Runs.getSt ?_
  rw [if_neg (by simp [hu.live.unended])]
  refine hf.react Iff.rfl (fun f hfan => evalJoin_runs wf hu hfan hd) (fun r hm hno => ?_) fun hidle ⟨nd, hnd, hty⟩ => ?_
  · obtain ⟨nd, hnd, hty⟩ := hm.type
    rw [← hno, hn] at hnd
    cases hnd
    rw [← hno, ← hid] at hm
    exact mapProgress_runs wf (enter_enters wf) (hid.symm ▸ hn) hty hu (Nat.zero_le _) hm hd
  · refine advance_runs (enter_enters wf) ⟨hu, hidle⟩ (Nat.zero_le _) fun next he hne => ?_
    by_cases hz : dyn = ""
    · rw [if_pos hz] at he
      subst he
      have : nd = n := Option.some.inj (hnd.symm.trans hn)
      exact wf.next hn (this ▸ hty) hne
    · rw [if_neg hz] at he
      subst he
      have hall := (hdyn hz).2
      unfold Node.allowsDynamic at hall
      exact wf.dynamic hn (by simpa using hall)

/-! ## Failed attempts -/

/-- A retry of the task at its key, at once or when its timer fires. -/
theorem retry_runs (hu : Unfinished c.fl base s) (hn : c.fl.node t.node = some n)
    (hp : Progress c.fl s.work) (ht : s.tasks[t.key]? = some t) (hs : t.status = .retrying) (hb : base < t.generation)
    (hd : s.work.TasksDispatched c.fl base (· = t.key)) :
    Holds c base (schedule c n t.key t.owner t.index t.item t.resumption t.generation (t.attempt + 1)) s
    fun _ => Settled c.fl base := by
  refine (schedule_retry hu hn ht hs hb).mono fun _ s' ⟨hu', hput⟩ => .inr ⟨hu', ?_, ?_, fun k a hget => ?_⟩
  · exact hp.reput hput ht rfl (Flow.node_id hn) rfl
  · exact hd.put hput fun k hne _ => hne
  · rw [hput.opened] at hget
    exact (hp.no_await_of_task ht hget).elim

theorem backoff_runs (hu : Unfinished c.fl base s) (hn : c.fl.node t.node = some n)
    (hp : Progress c.fl s.work) (ht : s.tasks[t.key]? = some t) (hs : t.status = .retrying) (hb : base < t.generation)
    (hd : s.work.TasksDispatched c.fl base (· = t.key)) (delay : Int) :
    Holds c base (if delay ≤ 0 then
    schedule c n t.key t.owner t.index t.item t.resumption t.generation (t.attempt + 1)
    else timerAt c .retry delay t.key t.node t.generation (t.attempt + 1)) s fun _ => Settled c.fl base := by
  split
  · exact retry_runs hu hn hp ht hs hb hd
  · refine (timerAt_runs hu .retry _ _ _ _ _).mono fun _ s' ⟨hu', tm, harm, hpur, hkey, hgen, hat⟩ => ?_
    have hopen : s'.work.toOpen = s.work.toOpen := by rw [harm.work]
    refine .inr ⟨hu', hp.of_open hopen (by rw [harm.work]), fun a t' hget _ => ?_, fun a aw hget => ?_⟩
    · rw [hopen] at hget
      by_cases he : a = t.key
      · subst he
        cases ht.symm.trans hget
        refine ⟨fun _ => hb, fun hs' => by simp [hs] at hs', fun _ => ⟨tm.id, tm, ?_, hpur, hkey, hgen, hat⟩⟩
        rw [harm.work]
        exact Std.ExtTreeMap.getElem?_insert_self
      · exact (hd a t' hget he).kept harm.kept
    · rw [hopen] at hget
      exact (hp.no_await_of_task ht hget).elim

/-- An instance settled without success and its owner reacts: the join, the failure edge, or the end. -/
theorem failed_runs (wf : WellFormed c.fl) (hu : Unfinished c.fl base s)
    (hn : c.fl.node node = some n) (hf : Freed c.fl s.work owner node 1)
    (hd : s.work.TasksDispatched c.fl base fun _ => False) (index : Nat) (reason msg : String) :
    Holds c base (if (s.fans[owner]?).isSome then evalJoin c owner
    else if n.onFailure ≠ "" then
    if (s.maps[owner]?).isSome ∧ node = owner then abortMap c n index else enter c n.onFailure
    else fail c reason msg node) s fun _ => Settled c.fl base := by
  have hid : n.id = node := Flow.node_id hn
  by_cases hof : n.onFailure ≠ ""
  · rw [if_pos hof]
    refine hf.react Iff.rfl (fun f hfan => evalJoin_runs wf hu hfan hd) (fun r hm hno => ?_) fun hidle _ => ?_
    · rw [← hno, ← hid] at hm
      exact abortMap_runs wf (hid.symm ▸ hn) hof hu hm index
    · exact enter_enters wf ⟨hu, hidle⟩ (Nat.zero_le _) (wf.onFailure hn hof)
  · rw [if_neg hof]
    cases hf with
    | branch hfan => rw [if_pos hfan.here]; exact evalJoin_runs wf hu hfan hd
    | alone hidle _ => rw [hidle.no_fan, if_neg (by simp)]; exact fail_or hu.live _ _ _
    | item hm _ => rw [hm.here.1, if_neg (by simp)]; exact fail_or hu.live _ _ _

theorem taskFailed_runs (wf : WellFormed c.fl) (hu : Unfinished c.fl base s) (hp : Progress c.fl s.work)
    (ht : s.tasks[t.key]? = some t) (hs : t.status = .scheduled) (hb : base < t.generation)
    (hd : s.work.TasksDispatched c.fl base (· = t.key)) (msg : String) (retryable : Bool) (reason : String)
    (usage : SMap Rat) :
    Holds c base (taskFailed c t msg retryable reason usage) s fun _ s' => Settled c.fl base s' ∧
    s'.work.Over t.key t.generation t.attempt := by
  obtain ⟨n, hn, -, -⟩ := (hu.sound.task ht).node
  unfold taskFailed
  refine nodeOf_runs hn (Runs.getSt ?_)
  simp only
  have hatt : s.work.Attempting base t.key t.generation t.attempt := ⟨t, ht, hs, rfl, rfl, hb⟩
  have hmax : (retryable && Decidable.decide ((t.attempt : Int) < n.maxAttempts) &&
      (overBudgetWith c s usage).isNone) = true → ∀ t', s.tasks[t.key]? = some t' →
      ∃ nd, c.fl.node t'.node = some nd ∧ (t'.attempt : Int) < nd.maxAttempts := by
    intro hr t' ht'
    cases ht.symm.trans ht'
    simp only [Bool.and_eq_true, decide_eq_true_eq] at hr
    exact ⟨n, hn, hr.1.2⟩
  refine emits_bind hu rfl ⟨hatt, hmax⟩ ⟨_, rfl⟩ fun s₁ hu₁ hw₁ => ?_
  have hover : s₁.work.Over t.key t.generation t.attempt := by
    rw [hw₁]
    exact over_nodeFail hu.sound ⟨hatt, hmax⟩
  refine Holds.keep (I := fun w => w.Over t.key t.generation t.attempt) Over.step hu₁.live.begun hover ?_
  split
  · exact fail_or hu₁.live _ _ _
  · split
    · -- the task waits for its next attempt
      rename_i hr
      have hset : s₁.work = { s.work with tasks := s.work.tasks.insert t.key { t with status := .retrying } } := by
        rw [hw₁]
        simp only [Work.step, hr, if_true, Work.setStatus, State.work_tasks, ht]
      have hget : s₁.work.tasks[t.key]? = some { t with status := .retrying } := by
        rw [hset]
        exact Std.ExtTreeMap.getElem?_insert_self
      refine backoff_runs (t := { t with status := .retrying }) hu₁ hn ?_ hget rfl hb ?_ _
      · have hopen : s₁.work.toOpen =
            { s.work.toOpen with tasks := s.work.tasks.insert t.key { t with status := .retrying } } := by rw [hset]
        refine hp.replace ht ?_ ?_ ?_ hopen <;> rfl
      · refine hd.of_kept (fun _ _ hid => by rw [hset]; exact hid) fun a t' hget hne => ?_
        rw [hset] at hget
        rcases get_of_insert hget with ⟨he, -⟩ | ⟨-, hget⟩
        · exact absurd he.symm hne
        · exact ⟨hget, hne⟩
    · -- the task is settled as failed
      rename_i hr
      have hset : s₁.work = s.work.settle t.key .failed := by
        rw [hw₁]
        simp only [Work.step]
        rw [if_neg hr]
      refine Runs.getSt (failed_runs wf hu₁ hn ?_ ?_ _ _ _)
      · rw [hset]; exact hp.settle_task ht (by simp)
      · refine hd.of_kept (fun _ _ hid => by rw [hset, (Work.settle_rest _ _ _).1]; exact hid) fun a t' hget _ => ?_
        rw [hset] at hget
        exact ⟨(Work.get_settle hget).1, fun he => (Work.get_settle hget).2 he.symm⟩

/-! ## Completions -/

/-- Writes that were checked are accepted one after another: each channel is written once. -/
theorem reduceAll_checked {x : Ext} {fl : Flow} : ∀ {ws : List (String × Json)} {channels : SMap Json},
    (ws.map Prod.fst).Nodup → (∀ w ∈ ws, channels[w.1]? = s.channels[w.1]?) → checkWrites x fl s ws = .ok () →
    ∃ m, State.reduceAll x.quote fl channels ws = .ok m
  | [], channels, _, _, _ => ⟨channels, rfl⟩
  | (name, delta) :: ws, channels, hnd, hsame, h => by
    simp only [List.map_cons, List.nodup_cons] at hnd
    unfold checkWrites at h
    unfold State.reduceAll
    split at h
    · cases h
    · rename_i ch hch
      split at h
      · cases h
      · rename_i v hv
        have hred : fl.reducerOf name = ch.reducerOrDefault := by simp only [Flow.reducerOf, hch]
        have hv' : reduce x.quote (fl.reducerOf name) channels[name]? delta = .ok v := by
          rw [hred, hsame (name, delta) List.mem_cons_self]
          exact hv
        rw [hv']
        refine reduceAll_checked hnd.2 (fun w hw => ?_) h
        rw [get_insert, if_neg]
        · exact hsame w (List.mem_cons_of_mem _ hw)
        · rintro rfl
          exact hnd.1 (List.mem_map_of_mem hw)

theorem reduceAll_of_check {writes : SMap Json} {u : Unit} (h : checkWrites c.x c.fl s writes.toList = .ok u) :
    ∃ m, State.reduceAll c.x.quote c.fl s.channels writes.toList = .ok m := by
  refine reduceAll_checked ?_ (fun _ _ => rfl) h
  rw [Std.ExtTreeMap.map_fst_toList_eq_keys]
  exact Std.ExtTreeMap.nodup_keys

/-- An open map is the one thing in progress. -/
theorem Progress.at_map {fl : Flow} {w : Work} (hp : Progress fl w) (hr : w.maps[node]? = some r) :
    w.MapOpen fl node r 0 ∧ r.done < r.next := by
  have no : w.maps = ∅ → False := fun he => by rw [he, get_empty] at hr; cases hr
  cases hp with
  | task h => exact (no h.rest.maps).elim
  | await h _ => exact (no h.rest.maps).elim
  | child h => exact (no h.rest.maps).elim
  | fan h _ => exact (no h.rest.maps).elim
  | map h busy =>
    have hget := hr
    rw [h.maps] at hget
    obtain ⟨rfl, rfl⟩ := get_of_single hget
    exact ⟨h, busy⟩

/-- The output of an item lands inside its map's results. -/
theorem Progress.item_index (h : Progress c.fl s.work) (ht : s.tasks[k]? = some t)
    (hm : s.maps[t.owner]? = some m) : t.index < m.outputs.length := by
  obtain ⟨hopen, -⟩ := h.at_map (State.work_maps_of hm)
  exact (hopen.task ht).2.2.1.trans_le (hopen.next_le.trans (le_of_eq hopen.size.symm))

theorem Progress.child_index (h : Progress c.fl s.work) {ch : ChildState} (hc : s.children[k]? = some ch)
    (hm : s.maps[ch.owner]? = some m) : ch.index < m.outputs.length := by
  obtain ⟨hopen, -⟩ := h.at_map (State.work_maps_of hm)
  exact (hopen.child hc).2.2.1.trans_le (hopen.next_le.trans (le_of_eq hopen.size.symm))

theorem recordItem_ok {i : Nat} {out : Raw} (h : i < m.outputs.length) :
    ∃ s', s.recordItem owner m i out = .ok s' := by
  unfold State.recordItem
  rw [if_pos h]
  exact ⟨_, rfl⟩

theorem recordOutput_ok {out : Raw} (h : ∀ m, s.maps[t.owner]? = some m → t.index < m.outputs.length) :
    ∃ s', s.recordOutput t out = .ok s' := by
  unfold State.recordOutput
  split
  · rename_i m hm
    split
    · exact recordItem_ok (h m hm)
    · exact ⟨_, rfl⟩
  · exact ⟨_, rfl⟩

theorem applyNodeDone_ok {d : Event.NodeDone} {u : Unit} (ht : s.tasks[d.key]? = some t)
    (hw : checkWrites c.x c.fl s d.writes.toList = .ok u)
    (hi : ∀ m, s.maps[t.owner]? = some m → t.index < m.outputs.length) :
    ∃ s', s.applyNodeDone c.x.quote c.fl d = .ok s' := by
  obtain ⟨channels, hch⟩ := reduceAll_of_check hw
  unfold State.applyNodeDone
  simp only [ht, hch]
  obtain ⟨s', hs'⟩ := @recordOutput_ok ({ s with channels }.addUsage d.usage) t d.output hi
  rw [hs']
  exact ⟨_, rfl⟩

/-- A completion without a problem: its writes fit, and its dynamic successor is declared. -/
theorem checkCompletion_none {output : Raw} {p : Cmd.CompleteData}
    (h : checkCompletion c s n t output p = none) : ∃ u, checkWrites c.x c.fl s p.writes.toList = .ok u ∧
    (p.next ≠ "" → t.owner = "" ∧ n.allowsDynamic p.next = true) := by
  unfold checkCompletion at h
  split at h
  · cases h
  · split at h
    · cases h
    · rename_i u hw
      refine ⟨u, hw, fun hne => ?_⟩
      split at h
      · cases h
      · rename_i hnot
        simpa [hne] using hnot

theorem current_some {ref : Cmd.TaskRef} (h : current s ref = some t) :
    s.tasks[ref.key]? = some t ∧ t.status = .scheduled ∧ (t.generation : Int) = ref.generation ∧
    (t.attempt : Int) = ref.attempt := by
  unfold current at h
  cases ht : s.tasks[ref.key]? with
  | none => simp [ht] at h
  | some t' =>
    simp only [ht] at h
    split at h
    · rename_i hc
      cases h
      exact ⟨rfl, hc.2.2, hc.1, hc.2.1⟩
    · cases h

/-- What a scheduled task between two decisions brings along. -/
theorem Work.Rested.current {ref : Cmd.TaskRef} (hr : s.work.Rested c.fl base) (hu : Unfinished c.fl base s)
    (h : current s ref = some t) : s.tasks[t.key]? = some t ∧ t.status = .scheduled ∧ base < t.generation := by
  obtain ⟨ht, hs, -, -⟩ := current_some h
  have hkey : t.key = ref.key := (hu.sound.task ht).key
  exact ⟨hkey.symm ▸ ht, hs, (hr.tasks _ _ ht id).own (by simp [hs])⟩

theorem complete_runs (wf : WellFormed c.fl) (hu : Unfinished c.fl base s) (hr : s.work.Rested c.fl base)
    (p : Cmd.CompleteData) : Holds c base (complete c p) s fun _ s' => Settled c.fl base s' ∧
    ∀ t, current s p.toTaskRef = some t → s'.work.Over t.key t.generation t.attempt := by
  unfold complete
  refine Runs.getSt ?_
  cases hcur : current s p.toTaskRef with
  | none => exact Runs.pure ⟨.inr ⟨hu, hr⟩, fun t ht => by cases ht⟩
  | some t =>
    obtain ⟨ht, hs, hb⟩ := hr.current hu hcur
    obtain ⟨n, hn, -, -⟩ := (hu.sound.task ht).node
    have hd : s.work.TasksDispatched c.fl base (· = t.key) := fun a t' hget _ => hr.tasks a t' hget id
    have one : ∀ {w : Work}, w.Over t.key t.generation t.attempt →
        ∀ t', some t = some t' → w.Over t'.key t'.generation t'.attempt := fun ho t' he => by cases he; exact ho
    refine nodeOf_runs hn ?_
    simp only
    split
    · exact (taskFailed_runs wf hu hr.progress ht hs hb hd _ _ _ _).mono fun _ _ ⟨h, ho⟩ => ⟨h, one ho⟩
    · rename_i hcheck
      obtain ⟨u, hw, hdyn⟩ := checkCompletion_none hcheck
      have ho : Offer c.fl base s (.nodeDone
          { key := t.key, node := t.node, generation := t.generation, attempt := t.attempt
            output := if isNull p.output = true then none else p.output
            writes := p.writes, next := p.next, usage := p.usage, cached := p.cached, cacheKey := p.cacheKey }) :=
        ⟨t, ht, hs, rfl, rfl, hb⟩
      refine emits_bind hu rfl ho (applyNodeDone_ok ht hw fun m hm => hr.progress.item_index ht hm) fun s₁ hu₁ hw₁ => ?_
      have hover : s₁.work.Over t.key t.generation t.attempt := by rw [hw₁]; exact over_nodeDone hu.sound ho
      have hfin : s₁.work = s.work.finishTask t.key := hw₁
      refine (Holds.keep (I := fun w => w.Over t.key t.generation t.attempt) Over.step hu₁.live.begun hover ?_).mono
        fun _ _ ⟨h, ho⟩ => ⟨h, one ho⟩
      refine Runs.getSt ?_
      split
      · exact fail_or hu₁.live _ _ _
      · refine afterSettle_runs wf hu₁ hn (by rw [hfin]; exact hr.progress.finish_task ht) ?_ hdyn
        refine hd.of_kept (fun _ _ hid => by rw [hfin, (Work.finishTask_rest _ _).1]; exact hid) fun a t' hget _ => ?_
        rw [hfin] at hget
        exact ⟨(Work.get_finishTask hget).1, fun he => (Work.get_finishTask hget).2 he.symm⟩

theorem failTask_runs (wf : WellFormed c.fl) (hu : Unfinished c.fl base s) (hr : s.work.Rested c.fl base)
    (p : Cmd.FailData) : Holds c base (failTask c p) s fun _ s' => Settled c.fl base s' ∧
    ∀ t, current s p.toTaskRef = some t → s'.work.Over t.key t.generation t.attempt := by
  unfold failTask
  refine Runs.getSt ?_
  cases hcur : current s p.toTaskRef with
  | none => exact Runs.pure ⟨.inr ⟨hu, hr⟩, fun t ht => by cases ht⟩
  | some t =>
    obtain ⟨ht, hs, hb⟩ := hr.current hu hcur
    refine (taskFailed_runs wf hu hr.progress ht hs hb (fun a t' hget _ => hr.tasks a t' hget id) _ _ _ _).mono
      fun _ _ ⟨h, ho⟩ => ⟨h, fun t' he => ?_⟩
    cases he
    exact ho

/-! ## Interrupts -/

theorem interrupt_runs (hu : Unfinished c.fl base s) (hr : s.work.Rested c.fl base) (p : Cmd.InterruptData) :
    Holds c base (interrupt c p) s fun _ s' => Settled c.fl base s' ∧
    ∀ t, current s p.toTaskRef = some t → s'.work.Over t.key t.generation t.attempt := by
  unfold interrupt
  refine Runs.getSt ?_
  cases hcur : current s p.toTaskRef with
  | none => exact Runs.pure ⟨.inr ⟨hu, hr⟩, fun t ht => by cases ht⟩
  | some t =>
    obtain ⟨ht, hs, hb⟩ := hr.current hu hcur
    have hatt : s.work.Attempting base t.key t.generation t.attempt := ⟨t, ht, hs, rfl, rfl, hb⟩
    refine emits_bind hu rfl ⟨_, hatt⟩ ?_ fun s₁ hu₁ hw₁ => ?_
    · simp only [State.applyData, Ctx.event, State.applyInterrupted, ht]
      exact ⟨_, rfl⟩
    have hover : s₁.work.Over t.key t.generation t.attempt := by rw [hw₁]; exact over_interrupted hu.sound hatt
    refine (Holds.keep (I := fun w => w.Over t.key t.generation t.attempt) Over.step hu₁.live.begun hover ?_).mono
      fun _ _ h => ⟨h.1, fun t' he => by cases he; exact h.2⟩
    refine Runs.getSt ?_
    split
    · exact fail_or hu₁.live _ _ _
    · obtain ⟨t₁, ht₁, hst₁, hplace⟩ : ∃ t₁ : Task, s₁.work = { s.work with tasks := s.work.tasks.insert t.key t₁ } ∧
          t₁.status = .interrupted ∧ t₁.owner = t.owner ∧ t₁.node = t.node ∧ t₁.index = t.index := by
        refine ⟨{ t with status := .interrupted, interrupt := p.payload }, ?_, rfl, rfl, rfl, rfl⟩
        rw [hw₁]
        simp only [Work.step, Work.setStatus, State.work_tasks, ht]
      refine Runs.pure (.inr ⟨hu₁, ?_, fun a t' hget _ => ?_, fun a aw hget => ?_⟩)
      · exact hr.progress.replace ht hplace.1 hplace.2.1 hplace.2.2 (by rw [ht₁])
      · rw [ht₁] at hget ⊢
        rcases get_of_insert hget with ⟨-, rfl⟩ | ⟨-, hget⟩
        · exact ⟨fun hne => absurd hst₁ hne, fun hs => by simp [hst₁] at hs, fun hs => by simp [hst₁] at hs⟩
        · exact hr.tasks a t' hget id
      · rw [ht₁] at hget
        exact (hr.progress.no_await_of_task ht hget).elim

theorem resume_runs (hu : Unfinished c.fl base s) (hr : s.work.Rested c.fl base) (p : Cmd.ResumeData) :
    Holds c base (resume c p) s fun _ => Settled c.fl base := by
  unfold resume
  refine Runs.getSt ?_
  split
  · exact Runs.pure (.inr ⟨hu, hr⟩)
  · rename_i k t hfind
    have ht : s.tasks[k]? = some t := Std.ExtTreeMap.mem_toList_iff_getElem?_eq_some.1 (List.mem_of_find?_eq_some hfind)
    have hres := List.find?_some hfind
    have hint : t.status = .interrupted := by
      simp only [resumes, Bool.and_eq_true, decide_eq_true_eq] at hres
      exact hres.1
    have hkey : t.key = k := (hu.sound.task ht).key
    subst hkey
    obtain ⟨n, hn, -, -⟩ := (hu.sound.task ht).node
    have hid : n.id = t.node := Flow.node_id hn
    refine nodeOf_runs hn ?_
    refine (schedule_fresh hu (hid.symm ▸ hn) fun t' ht' hs => ?_).mono fun _ s' ⟨hu', hput⟩ =>
      .inr ⟨hu', ?_, ?_, fun a aw hget => ?_⟩
    · cases ht.symm.trans ht'
      simp [hint] at hs
    · exact hr.progress.reput hput ht rfl hid rfl
    · exact hr.tasks.put hput fun _ _ h => h
    · rw [hput.opened] at hget
      exact (hr.progress.no_await_of_task ht hget).elim

end

end Packtrail
