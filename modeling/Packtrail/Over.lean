import Packtrail.Guard

/-
# What one event can do

`task_step`, `child_step` and `timer_step` say once where a task, a child or a timer found after an
event came from, `task_kept` which tasks an event leaves alone; everything proved of whole logs goes
through them. From them follows what a redelivery relies on: an attempt, a timer or a child that is
over stays over (`Over.step`, `TimerOver.step`, `ChildOver.step`), since numbers are never used twice.
-/

namespace Packtrail

namespace Work

/-- Where the task `t'` at `k` after payload `p` came from. -/
inductive TaskStep (w : Work) (p : Payload) (k : String) (t' : Task) : Prop
  | kept (h : w.tasks[k]? = some t')
  | scheduled (d : Event.Scheduled) (hp : p = .scheduled d) (hk : d.key = k) (ht : t' = w.taskOf d)
  | retrying (d : Event.NodeFail) (t : Task) (hp : p = .nodeFail d) (hr : d.willRetry = true) (hk : d.key = k)
      (h : w.tasks[k]? = some t) (ht : t' = { t with status := .retrying })
  | interrupted (d : Event.Interrupted) (t : Task) (hp : p = .interrupted d) (hk : d.key = k)
      (h : w.tasks[k]? = some t) (ht : t' = { t with status := .interrupted, interrupt := d.payload })

variable {w : Work} {k : String}

theorem get_settle {key : String} {o : BranchStatus} {t : Task} (h : (w.settle key o).tasks[k]? = some t) :
    w.tasks[k]? = some t ∧ (key = k → False) := by
  unfold settle at h
  cases hk : w.tasks[key]? with
  | none =>
    rw [hk] at h
    refine ⟨h, fun he => ?_⟩
    rw [he] at hk
    cases hk.symm.trans h
  | some t₀ =>
    rw [hk] at h
    exact ⟨(get_of_erase h).2, (get_of_erase h).1⟩

theorem get_finishTask {key : String} {t : Task} (h : (w.finishTask key).tasks[k]? = some t) :
    w.tasks[k]? = some t ∧ (key = k → False) := by
  unfold finishTask at h
  cases hk : w.tasks[key]? with
  | none =>
    rw [hk] at h
    refine ⟨h, fun he => ?_⟩
    rw [he] at hk
    cases hk.symm.trans h
  | some t₀ =>
    rw [hk] at h
    exact @get_settle { w with maps := w.countDone t₀.owner t₀.node } k key .completed t h

theorem get_setStatus {key : String} {f : Task → Task} {t : Task} (h : (w.setStatus key f).tasks[k]? = some t) :
    (key ≠ k ∧ w.tasks[k]? = some t) ∨ (key = k ∧ ∃ t₀, w.tasks[k]? = some t₀ ∧ t = f t₀) := by
  unfold setStatus at h
  cases hk : w.tasks[key]? with
  | none =>
    rw [hk] at h
    refine .inl ⟨fun he => ?_, h⟩
    rw [he] at hk
    cases hk.symm.trans h
  | some t₀ =>
    rw [hk] at h
    rcases get_of_insert h with ⟨he, ht⟩ | ⟨hne, h⟩
    · exact .inr ⟨he, t₀, he ▸ hk, ht.symm⟩
    · exact .inl ⟨hne, h⟩

theorem finishChild_tasks (w : Work) (d : Event.ChildDone) : (w.finishChild d).tasks = w.tasks := by
  unfold finishChild settleChild
  simp only
  split
  · rfl
  · split
    · split <;> rfl
    · rfl

theorem finishChild_timers (w : Work) (d : Event.ChildDone) : (w.finishChild d).timers = w.timers := by
  unfold finishChild settleChild
  simp only
  split
  · rfl
  · split
    · split <;> rfl
    · rfl

theorem finishChild_children (w : Work) (d : Event.ChildDone) :
    (w.finishChild d).children = w.children.erase d.instanceKey := by
  unfold finishChild settleChild
  simp only
  split
  · rfl
  · split
    · split <;> rfl
    · rfl

theorem settle_rest (w : Work) (key : String) (o : BranchStatus) :
    (w.settle key o).timers = w.timers ∧ (w.settle key o).children = w.children ∧ (w.settle key o).n = w.n := by
  unfold settle
  split <;> exact ⟨rfl, rfl, rfl⟩

theorem finishTask_rest (w : Work) (key : String) :
    (w.finishTask key).timers = w.timers ∧ (w.finishTask key).children = w.children ∧ (w.finishTask key).n = w.n := by
  unfold finishTask
  split
  · exact ⟨rfl, rfl, rfl⟩
  · obtain ⟨h1, h2, h3⟩ := settle_rest { w with maps := w.countDone _ _ } key .completed
    exact ⟨h1, h2, h3⟩

theorem setStatus_rest (w : Work) (key : String) (f : Task → Task) :
    (w.setStatus key f).timers = w.timers ∧ (w.setStatus key f).children = w.children ∧ (w.setStatus key f).n = w.n := by
  unfold setStatus
  split <;> exact ⟨rfl, rfl, rfl⟩

end Work

section
variable {fl : Flow} {base : Nat} {s : State} {p : Payload} {k : String}

/-- A continuation changes nothing that is in progress. -/
theorem Offer.continued_work {d : Event.Continued} (h : Offer fl base s (.continued d)) :
    s.work.step (.continued d) = s.work := by
  obtain ⟨seg, q, hseg⟩ := h
  show (unmarshal d.state).work = s.work
  rw [hseg]
  exact (State.work_encoded _).trans (State.work_encoded s)

theorem task_step (ho : Offer fl base s p) (hb : p.begins = false) {t : Task}
    (h : (s.work.step p).tasks[k]? = some t) : s.work.TaskStep p k t := by
  cases p with
  | started d => cases hb
  | forked d => cases hb
  | continued d => rw [ho.continued_work] at h; exact .kept h
  | completed d => exact absurd h (by simp [Work.step, Work.closed])
  | failed d => exact absurd h (by simp [Work.step, Work.closed])
  | cancelled d => exact absurd h (by simp [Work.step, Work.closed])
  | scheduled d =>
    rcases get_of_insert h with ⟨hk, ht⟩ | ⟨-, h⟩
    · exact .scheduled d rfl hk ht.symm
    · exact .kept h
  | nodeDone d => exact .kept (Work.get_finishTask h).1
  | nodeFail d =>
    simp only [Work.step] at h
    split at h
    · rename_i hr
      rcases Work.get_setStatus h with ⟨-, h⟩ | ⟨hk, t₀, h, ht⟩
      · exact .kept h
      · exact .retrying d t₀ rfl hr hk h ht
    · exact .kept (Work.get_settle h).1
  | interrupted d =>
    rcases Work.get_setStatus h with ⟨-, h⟩ | ⟨hk, t₀, h, ht⟩
    · exact .kept h
    · exact .interrupted d t₀ rfl hk h ht
  | nodeCancel d => exact .kept (Work.get_settle h).1
  | childDone d =>
    simp only [Work.step, Work.finishChild_tasks] at h
    exact .kept h
  | _ => exact .kept h

/-- The task an event is about. -/
def Payload.taskKey : Payload → Option String
  | .scheduled d => some d.key
  | .nodeDone d => some d.key
  | .nodeFail d => some d.key
  | .interrupted d => some d.key
  | .nodeCancel d => some d.key
  | _ => none

/-- A task stays as it is under an event about another one, until the execution ends. -/
theorem task_kept (ho : Offer fl base s p) (hb : p.begins = false) (ht : p.terminal = false) (hk : p.taskKey ≠ some k) :
    (s.work.step p).tasks[k]? = s.work.tasks[k]? := by
  have settle : ∀ (w : Work) (key : String) (o : BranchStatus), key ≠ k → (w.settle key o).tasks[k]? = w.tasks[k]? := by
    intro w key o hne
    unfold Work.settle
    split
    · rfl
    · rw [get_erase, if_neg hne]
  have setStatus : ∀ (w : Work) (key : String) (f : Task → Task), key ≠ k → (w.setStatus key f).tasks[k]? = w.tasks[k]? := by
    intro w key f hne
    unfold Work.setStatus
    split
    · rfl
    · rw [get_insert, if_neg hne]
  cases p with
  | started d => cases hb
  | forked d => cases hb
  | continued d => rw [ho.continued_work]
  | completed d => cases ht
  | failed d => cases ht
  | cancelled d => cases ht
  | scheduled d =>
    show (s.work.tasks.insert d.key _)[k]? = _
    rw [get_insert, if_neg fun he => hk (congrArg some he)]
  | nodeDone d =>
    show (s.work.finishTask d.key).tasks[k]? = _
    unfold Work.finishTask
    split
    · rfl
    · exact settle _ _ _ fun he => hk (congrArg some he)
  | nodeFail d =>
    simp only [Work.step]
    split
    · exact setStatus _ _ _ fun he => hk (congrArg some he)
    · exact settle _ _ _ fun he => hk (congrArg some he)
  | interrupted d => exact setStatus _ _ _ fun he => hk (congrArg some he)
  | nodeCancel d => exact settle _ _ _ fun he => hk (congrArg some he)
  | childDone d =>
    simp only [Work.step, Work.finishChild_tasks]
  | _ => rfl

/-- Whether child `ch` at key `k` stays open after `p`. -/
def Payload.keepsChild (k : String) (ch : ChildState) : Payload → Bool
  | .childDone d => d.instanceKey ≠ k
  | .join d => ch.owner ≠ d.fanout
  | .mapAbort d => ch.owner ≠ d.node
  | .completed _ | .failed _ | .cancelled _ => false
  | _ => true

/-- The children after an event that starts none. -/
theorem children_step (ho : Offer fl base s p) (hf : p.isForked = false) (hc : ∀ d, p ≠ .child d) {ch : ChildState} :
    (s.work.step p).children[k]? = some ch ↔ s.work.children[k]? = some ch ∧ p.keepsChild k ch = true := by
  cases p with
  | forked d => cases hf
  | continued d => rw [ho.continued_work]; simp [Payload.keepsChild]
  | completed d => simp [Work.step, Work.closed, Payload.keepsChild]
  | failed d => simp [Work.step, Work.closed, Payload.keepsChild]
  | cancelled d => simp [Work.step, Work.closed, Payload.keepsChild]
  | nodeDone d => simp [Work.step, Work.finishTask_rest, Payload.keepsChild]
  | nodeFail d =>
    simp only [Work.step]
    split
    · rw [(Work.setStatus_rest _ _ _).2.1]; simp [Payload.keepsChild]
    · rw [(Work.settle_rest _ _ _).2.1]; simp [Payload.keepsChild]
  | interrupted d => simp [Work.step, Work.setStatus_rest, Payload.keepsChild]
  | nodeCancel d => simp [Work.step, Work.settle_rest, Payload.keepsChild]
  | join d =>
    obtain ⟨f, hf⟩ := Option.isSome_iff_exists.1 ho.1
    simp only [Work.step, Work.closeFan, show s.work.fans[d.fanout]? = some f from hf, Work.dropChildren, get_filter]
    simp [Payload.keepsChild]
  | mapAbort d =>
    simp only [Work.step, Work.dropChildren, get_filter]
    simp [Payload.keepsChild]
  | child d => exact absurd rfl (hc d)
  | childDone d =>
    simp only [Work.step, Work.finishChild_children, Payload.keepsChild, get_erase]
    split
    · rename_i he; simp [he]
    · rename_i he; simp [he]
  | _ => exact (and_iff_left rfl).symm

/-- Where a child found after an event came from. -/
theorem child_step (ho : Offer fl base s p) (hb : p.begins = false) {ch : ChildState}
    (h : (s.work.step p).children[k]? = some ch) :
    s.work.children[k]? = some ch ∨ ∃ d, p = .child d ∧ d.instanceKey = k ∧ ch.childID = d.childID := by
  by_cases hc : ∃ d, p = .child d
  · obtain ⟨d, rfl⟩ := hc
    rcases get_of_insert h with ⟨hk, rfl⟩ | ⟨-, h⟩
    · exact .inr ⟨d, rfl, hk, rfl⟩
    · exact .inl h
  · have hf : p.isForked = false := by cases p <;> first | rfl | cases hb
    exact .inl ((children_step ho hf fun d hd => hc ⟨d, hd⟩).1 h).1

theorem closeAwait_timers {w : Work} {node : String} {tm : Timer} (h : (w.closeAwait node).timers[k]? = some tm) :
    w.timers[k]? = some tm := by
  unfold Work.closeAwait at h
  simp only at h
  split at h
  · exact (get_of_erase h).2
  · exact h

/-- Where a timer found after an event came from. -/
theorem timer_step (ho : Offer fl base s p) (hb : p.begins = false) {tm : Timer}
    (h : (s.work.step p).timers[k]? = some tm) : s.work.timers[k]? = some tm ∨ p = .timer tm ∧ tm.id = k := by
  cases p with
  | started d => cases hb
  | forked d => cases hb
  | continued d => rw [ho.continued_work] at h; exact .inl h
  | completed d => exact absurd h (by simp [Work.step, Work.closed])
  | failed d => exact absurd h (by simp [Work.step, Work.closed])
  | cancelled d => exact absurd h (by simp [Work.step, Work.closed])
  | nodeDone d => simp only [Work.step, Work.finishTask_rest] at h; exact .inl h
  | nodeFail d =>
    simp only [Work.step] at h
    split at h
    · rw [(Work.setStatus_rest _ _ _).1] at h; exact .inl h
    · rw [(Work.settle_rest _ _ _).1] at h; exact .inl h
  | interrupted d => simp only [Work.step, Work.setStatus_rest] at h; exact .inl h
  | nodeCancel d => simp only [Work.step, Work.settle_rest] at h; exact .inl h
  | childDone d => simp only [Work.step, Work.finishChild_timers] at h; exact .inl h
  | awaitTimeout d => exact .inl (closeAwait_timers h)
  | signalUse d => exact .inl (closeAwait_timers h)
  | timer d =>
    rcases get_of_insert h with ⟨hk, rfl⟩ | ⟨-, h⟩
    · exact .inr ⟨rfl, hk⟩
    · exact .inl h
  | fired d => exact .inl (get_of_erase h).2
  | _ => exact .inl h

theorem Work.step_n {p : Payload} (hp : p.plain = true) (w : Work) : w.n ≤ (w.step p).n := by
  cases p <;> simp only [Payload.plain, Bool.false_eq_true] at hp <;> simp only [Work.step, le_refl]
  case scheduled d => exact le_max_left _ _
  case child d => exact le_max_left _ _
  case timer d => exact le_max_left _ _
  case nodeDone d => rw [(Work.finishTask_rest w d.key).2.2]
  case nodeFail d =>
    split
    · rw [(Work.setStatus_rest w _ _).2.2]
    · rw [(Work.settle_rest w _ _).2.2]
  case interrupted d => rw [(Work.setStatus_rest w _ _).2.2]
  case nodeCancel d => rw [(Work.settle_rest w _ _).2.2]
  case fanout d => exact le_rfl
  case map d => exact le_rfl
  case join d => exact le_rfl
  case awaitTimeout d => exact le_rfl
  case signalUse d => exact le_rfl
  case childDone d =>
    unfold Work.finishChild Work.settleChild
    simp only
    split
    · exact le_rfl
    · split
      · split <;> exact le_rfl
      · exact le_rfl

/-- Numbers only grow. -/
theorem n_step (ho : Offer fl base s p) (hb : p.begins = false) : s.n ≤ (s.work.step p).n := by
  by_cases hp : p.plain = true
  · exact Work.step_n hp s.work
  · cases p with
    | started d => cases hb
    | forked d => cases hb
    | continued d => rw [ho.continued_work]; exact le_rfl
    | completed d => exact le_rfl
    | failed d => exact le_rfl
    | cancelled d => exact le_rfl
    | _ => exact absurd rfl hp

end

/-! ## What is over stays over -/

namespace Work

/-- Attempt `a` of generation `g` at `key` is not in flight, and no later attempt is this one again. -/
def Over (w : Work) (key : String) (g a : Nat) : Prop :=
  g ≤ w.n ∧ ∀ t, w.tasks[key]? = some t → t.generation = g → a < t.attempt ∨ a = t.attempt ∧ t.status ≠ .scheduled

/-- Timer `id` fired, or was dropped with what it was for. -/
def TimerOver (w : Work) (id : String) : Prop := w.timers[id]? = Option.none ∧ ∃ m ≤ w.n, id = timerID m

def ChildOver (w : Work) (id : String) : Prop :=
  (∀ {k : String} {ch}, w.children[k]? = some ch → ch.childID ≠ id) ∧ ∃ m ≤ w.n, Numbered id m

end Work

section
variable {fl : Flow} {base : Nat} {s : State} {p : Payload}

theorem Over.step {key : String} {g a : Nat} (h : s.work.Over key g a) (ho : Offer fl base s p) (hb : p.begins = false) :
    (s.work.step p).Over key g a := by
  refine ⟨h.1.trans (n_step ho hb), fun t ht hg => ?_⟩
  cases task_step ho hb ht with
  | kept hk => exact h.2 t hk hg
  | scheduled d hp hk htask =>
    subst hp htask
    -- a fresh run has a new generation, a retry a later attempt than the one it follows
    rcases ho.1 with ⟨-, hgen, -⟩ | ⟨t₀, ht₀, hst, hgen, hatt, -⟩
    · have hle : g ≤ s.work.n := h.1
      have : d.generation = g := hg
      omega
    · have hatt' : (s.work.taskOf d).attempt = t₀.attempt + 1 := hatt
      rw [hk] at ht₀
      rcases h.2 t₀ ht₀ (hgen.symm.trans hg) with hlt | ⟨heq, -⟩
      · exact .inl (by omega)
      · exact .inl (by omega)
  | retrying d t₀ hp hr hk ht₀ htask =>
    subst htask
    exact (h.2 t₀ ht₀ hg).imp_right fun ⟨heq, _⟩ => ⟨heq, by simp⟩
  | interrupted d t₀ hp hk ht₀ htask =>
    subst htask
    exact (h.2 t₀ ht₀ hg).imp_right fun ⟨heq, _⟩ => ⟨heq, by simp⟩

/-- The events that settle an attempt. -/
theorem over_of_attempting {key : String} {g a : Nat} (h : s.work.Sound fl) (ho : Offer fl base s p) (hb : p.begins = false)
    (hatt : s.work.Attempting base key g a)
    (hset : ∀ t, (s.work.step p).tasks[key]? = some t → t.generation = g → a = t.attempt ∧ t.status ≠ .scheduled) :
    (s.work.step p).Over key g a := by
  obtain ⟨t, ht, -, rfl, -, -⟩ := hatt
  exact ⟨(h.task ht).le.trans (n_step ho hb), fun t' ht' hg => .inr (hset t' ht' hg)⟩

theorem over_nodeDone {d : Event.NodeDone} (h : s.work.Sound fl) (ho : Offer fl base s (.nodeDone d)) :
    (s.work.step (.nodeDone d)).Over d.key d.generation d.attempt :=
  over_of_attempting h ho rfl ho fun _ ht _ => ((Work.get_finishTask ht).2 rfl).elim

theorem over_nodeFail {d : Event.NodeFail} (h : s.work.Sound fl) (ho : Offer fl base s (.nodeFail d)) :
    (s.work.step (.nodeFail d)).Over d.key d.generation d.attempt := by
  refine over_of_attempting h ho rfl ho.1 fun t ht _ => ?_
  obtain ⟨t₀, ht₀, -, -, hatt, -⟩ := ho.1
  simp only [Work.step] at ht
  split at ht
  · rcases Work.get_setStatus ht with ⟨hne, -⟩ | ⟨-, t₁, ht₁, rfl⟩
    · exact absurd rfl hne
    · cases ht₀.symm.trans ht₁
      exact ⟨hatt.symm, by simp⟩
  · exact ((Work.get_settle ht).2 rfl).elim

theorem over_interrupted {d : Event.Interrupted} {a : Nat} (h : s.work.Sound fl)
    (hatt : s.work.Attempting base d.key d.generation a) : (s.work.step (.interrupted d)).Over d.key d.generation a := by
  refine @over_of_attempting fl base s _ _ _ _ h ⟨a, hatt⟩ rfl hatt fun t ht _ => ?_
  obtain ⟨t₀, ht₀, -, -, ha, -⟩ := hatt
  rcases Work.get_setStatus ht with ⟨hne, -⟩ | ⟨-, t₁, ht₁, rfl⟩
  · exact absurd rfl hne
  · cases ht₀.symm.trans ht₁
    exact ⟨ha.symm, by simp⟩

theorem TimerOver.step {id : String} (h : s.work.TimerOver id) (ho : Offer fl base s p) (hb : p.begins = false) :
    (s.work.step p).TimerOver id := by
  obtain ⟨hnone, m, hm, hid⟩ := h
  refine ⟨?_, m, hm.trans (n_step ho hb), hid⟩
  cases hget : (s.work.step p).timers[id]? with
  | none => rfl
  | some tm =>
    rcases timer_step ho hb hget with h | ⟨hp, he⟩
    · cases hnone.symm.trans h
    · subst hp
      have hn : tm.n = s.n + 1 := ho.1
      have := timerID_inj ((hid.symm.trans he.symm).trans ho.2)
      have hm : m ≤ s.n := hm
      omega

theorem ChildOver.step {id : String} (h : s.work.ChildOver id) (ho : Offer fl base s p) (hb : p.begins = false) :
    (s.work.step p).ChildOver id := by
  obtain ⟨hnone, m, hm, hid⟩ := h
  refine ⟨fun hget he => ?_, m, hm.trans (n_step ho hb), hid⟩
  rcases child_step ho hb hget with h | ⟨d, hp, -, hc⟩
  · exact hnone h he
  · subst hp
    have hn : d.childN = s.n + 1 := ho.1
    have := hid.inj ((hc.symm.trans he) ▸ ho.2.1)
    have hm : m ≤ s.n := hm
    omega

end

end Packtrail
