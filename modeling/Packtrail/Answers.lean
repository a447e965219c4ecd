import Packtrail.Lineage
import Packtrail.Dispatch

/-
# The answer travels with its question

A task that is interrupted asks a question, and a resume answers it. `visitOf k l` reads from a history
what happened to the instance at `k` since it was scheduled afresh: the payload of its latest interrupt,
and the resume that began its current run. **`answer_travels`**: every job of the instance carries that
resume and the payload it answers, and a job of a run that no resume began carries neither.
-/

namespace Packtrail

open Replay

/-- What happened to a task instance since it was scheduled afresh. -/
structure Visit where
  /-- It is interrupted and waits for a resume. -/
  waiting : Bool := false
  /-- The payload of its latest interrupt. -/
  question : Raw := none
  /-- The resume that began the current run, and the payload it answers. -/
  answer : Option (Resumption × Raw) := none

/-- What a request answers an interrupted instance with. -/
def Request.answer? (req : Request) : Option Resumption :=
  match req.cause with
  | .answer r => some r
  | _ => none

/-- The instance is scheduled: afresh, by a resume when it is interrupted, or once more for the same run by a retry or
a fork. -/
def Visit.scheduled (req : Request) : Option Visit → Option Visit
  | none => some {}
  | some v => some (if v.waiting then { v with waiting := false, answer := req.answer?.map fun r => (r, v.question) } else v)

/-- The instance at `k` once the event is read; `none` while there is none. -/
def visitStep (k : String) (v : Option Visit) (req : Request) : Payload → Option Visit
  | .scheduled d => if d.key = k then Visit.scheduled req v else v
  | .interrupted d => if d.key = k then v.map fun v => { v with waiting := true, question := d.payload } else v
  | .nodeDone d => if d.key = k then none else v
  | .nodeFail d => if d.key = k ∧ d.willRetry = false then none else v
  | .nodeCancel d => if d.key = k then none else v
  | .completed _ | .failed _ | .cancelled _ => none
  | _ => v

def visitOf (k : String) (l : List (Request × Event)) : Option Visit :=
  l.foldl (fun v m => visitStep k v m.1 m.2.data) none

theorem visitOf_snoc (k : String) (l : List (Request × Event)) (req : Request) (ev : Event) :
    visitOf k (l ++ [(req, ev)]) = visitStep k (visitOf k l) req ev.data := by
  simp [visitOf]

/-! ## The task of a visit -/

/-- A resume value and a payload are those of the answer, or absent. -/
def Bears (resume : Raw) (by_ : String) (interrupt : Raw) : Option (Resumption × Raw) → Prop
  | none => resume = none ∧ by_ = "" ∧ interrupt = none
  | some (r, question) => resume = r.value ∧ r.value.isSome = true ∧ by_ = r.resumer ∧ interrupt = question

/-- Task `t` is the instance of visit `v`. -/
structure Task.Of (t : Task) (v : Visit) : Prop where
  waiting : t.status = .interrupted ↔ v.waiting = true
  question : v.waiting = true → t.interrupt = v.question
  answer : ∃ payload, Bears t.resume t.resumedBy payload v.answer ∧ (v.waiting = false → t.interrupt = payload)

/-- The instance at `k` is the one its history tells. -/
def Visiting (k : String) (o : Open) : Option Visit → Prop
  | none => o.tasks[k]? = none
  | some v => ∃ t, o.tasks[k]? = some t ∧ t.Of v

section
variable {fl : Flow} {s : State} {req : Request} {base : Nat} {k : String} {v : Option Visit} {w : Work}

theorem Request.answer_isSome {r : Resumption} (h : req.answer? = some r) : r.value.isSome = true := by
  have hask : ∀ {a : Ask}, a.cause = .answer r → r.value.isSome = true := by
    intro a ha
    cases a with
    | fork => cases ha
    | command cmd =>
      cases hd : cmd.data with
      | resume p =>
        simp only [Ask.cause, hd, CmdData.cause, Cause.answer.injEq] at ha
        rw [← ha]
        rfl
      | _ => simp only [Ask.cause, hd, CmdData.cause] at ha; cases ha
  have hcause : req.cause = .answer r := by
    unfold Request.answer? at h
    split at h
    · rename_i r' hr
      rw [hr, Option.some.inj h]
    · cases h
  cases req with
  | ask a => exact hask hcause
  | continueAsNew seg cmdID => cases hcause
  | abort a decided cmdID reason msg => exact hask hcause

theorem Request.answer_of_cause {r : Resumption} (h : req.cause = .answer r) : req.answer? = some r := by
  unfold Request.answer?
  rw [h]

/-- Other instances stay as they are. -/
theorem Visiting.of_get {o o' : Open} (h : Visiting k o v) (hget : o'.tasks[k]? = o.tasks[k]?) : Visiting k o' v := by
  cases v with
  | none => exact hget.trans h
  | some v =>
    obtain ⟨t, ht, hof⟩ := h
    exact ⟨t, hget.trans ht, hof⟩

variable {t : Task} {g : Visit} {key : String}

theorem Task.Of.running (h : t.Of g) (hs : t.status ≠ .interrupted) : g.waiting = false := by
  rw [← Bool.not_eq_true, ← h.waiting]
  exact hs

/-- A task that is not interrupted keeps a payload only with an answer to it. -/
theorem Task.Of.interrupt_eq (h : t.Of g) (hs : t.status ≠ .interrupted) :
    t.interrupt = if t.resume.isSome then t.interrupt else none := by
  obtain ⟨payload, hb, hp⟩ := h.answer
  rw [hp (h.running hs)]
  cases ha : g.answer with
  | none =>
    rw [ha] at hb
    rw [hb.1, hb.2.2]
    rfl
  | some p =>
    rw [ha] at hb
    rw [hb.1, hb.2.1]
    rfl

/-- The task of a run that goes on. -/
theorem Task.Of.again (h : t.Of g) (hs : t.status ≠ .interrupted) {t' : Task}
    (hst : t'.status ≠ .interrupted) (hr : t'.resume = t.resume) (hby : t'.resumedBy = t.resumedBy)
    (hi : t'.interrupt = if t.resume.isSome then t.interrupt else none) : t'.Of g := by
  have hw := h.running hs
  obtain ⟨payload, hb, hp⟩ := h.answer
  refine ⟨by simp [hst, hw], fun hc => by simp [hw] at hc, payload, by rw [hr, hby]; exact hb, fun _ => ?_⟩
  rw [hi, ← h.interrupt_eq hs]
  exact hp hw

theorem Visiting.scheduled (h : Visiting k s.work.toOpen v) {d : Event.Scheduled} (hk : d.key = k)
    (ha : (Payload.scheduled d).Apt req.cause fl s) : Visiting k (s.work.schedule d).toOpen (Visit.scheduled req v) := by
  have hget : (s.work.schedule d).tasks[k]? = some (s.work.taskOf d) := by
    show (s.work.tasks.insert d.key _)[k]? = _
    rw [get_insert, if_pos hk]
  have hint : (s.work.taskOf d).interrupt =
      (s.work.tasks[k]?).elim none fun prev => if d.resume.isSome then prev.interrupt else none := by
    rw [← hk]
    unfold Work.taskOf
    cases s.work.tasks[d.key]? <;> rfl
  rcases ha with ⟨hfree, -, -, hr, hby⟩ | ⟨t, ht, -, hcase⟩
  · -- a fresh instance
    have hnone : s.work.tasks[k]? = none := hk ▸ hfree.task
    rw [hnone] at hint
    cases v with
    | some g =>
      obtain ⟨t, ht, -⟩ := h
      rw [hnone] at ht
      cases ht
    | none =>
      refine ⟨_, hget, ?_, fun hc => (by cases hc), none, ⟨hr, hby, rfl⟩, fun _ => hint⟩
      simp [Work.taskOf]
  · have ht : s.work.tasks[k]? = some t := hk ▸ ht
    rw [ht] at hint
    cases v with
    | none =>
      rw [show s.work.tasks[k]? = none from h] at ht
      cases ht
    | some g =>
      obtain ⟨t', ht', hof⟩ := h
      cases ht.symm.trans ht'
      rcases hcase with ⟨hs, hr, hby⟩ | ⟨r, hc, hs, -, hr, hby⟩
      · -- the same run
        have hw := hof.running hs
        simp only [Visit.scheduled, hw]
        refine ⟨_, hget, hof.again hs (by simp [Work.taskOf]) hr hby ?_⟩
        rw [← hr]
        exact hint
      · -- a run that a resume begins
        have hw : g.waiting = true := hof.waiting.1 hs
        have hans := Request.answer_of_cause hc
        have hsome := Request.answer_isSome hans
        simp only [Visit.scheduled, hw, if_true, hans, Option.map_some]
        refine ⟨_, hget, by simp [Work.taskOf], fun hc => (by cases hc), g.question, ⟨hr, hsome, hby, rfl⟩, fun _ => ?_⟩
        rw [hint, Option.elim_some, hr, if_pos hsome]
        exact hof.question hw

theorem get_settle_ne {out : BranchStatus} (hne : key ≠ k) : (w.settle key out).tasks[k]? = w.tasks[k]? := by
  unfold Work.settle
  split
  · rfl
  · show (w.tasks.erase key)[k]? = _
    rw [get_erase, if_neg hne]

theorem get_settle_self {out : BranchStatus} : (w.settle k out).tasks[k]? = none := by
  unfold Work.settle
  split
  · assumption
  · show (w.tasks.erase k)[k]? = _
    rw [get_erase, if_pos rfl]

theorem get_setStatus_ne {g : Task → Task} (hne : key ≠ k) : (w.setStatus key g).tasks[k]? = w.tasks[k]? := by
  unfold Work.setStatus
  split
  · rfl
  · show (w.tasks.insert key _)[k]? = _
    rw [get_insert, if_neg hne]

theorem get_setStatus_self {g : Task → Task} (ht : w.tasks[k]? = some t) :
    (w.setStatus k g).tasks[k]? = some (g t) := by
  unfold Work.setStatus
  rw [ht]
  show (w.tasks.insert k _)[k]? = _
  rw [get_insert, if_pos rfl]

theorem get_finishTask_any (w : Work) : (w.finishTask key).tasks[k]? = if key = k then none else w.tasks[k]? := by
  unfold Work.finishTask
  by_cases hk : key = k
  · subst hk
    rw [if_pos rfl]
    split
    · assumption
    · exact get_settle_self
  · rw [if_neg hk]
    split
    · rfl
    · exact get_settle_ne hk

theorem finishChild_tasks (w : Work) (d : Event.ChildDone) : (w.finishChild d).tasks = w.tasks := by
  unfold Work.finishChild
  simp only
  split
  · rfl
  · unfold Work.settleChild
    simp only
    split
    · split <;> rfl
    · rfl

/-- Every event keeps the instance as its history tells it. -/
theorem Visiting.step (h : Visiting k s.work.toOpen v) {p : Payload} (ho : Offer fl base s p) (ha : p.Apt req.cause fl s)
    (hf : p.isForked = false) : Visiting k (s.work.step p).toOpen (visitStep k v req p) := by
  cases p with
  | forked d => cases hf
  | continued d => exact h.of_get (by rw [ho.continued_work])
  | completed d => exact get_empty
  | failed d => exact get_empty
  | cancelled d => exact get_empty
  | scheduled d =>
    simp only [visitStep]
    split
    · rename_i hk
      exact h.scheduled hk ha
    · rename_i hne
      refine h.of_get ?_
      show (s.work.tasks.insert d.key _)[k]? = _
      rw [get_insert, if_neg hne]
  | nodeDone d =>
    simp only [visitStep]
    split
    · rename_i hk
      exact (get_finishTask_any s.work).trans (if_pos hk)
    · rename_i hne
      exact h.of_get ((get_finishTask_any s.work).trans (if_neg hne))
  | nodeFail d =>
    obtain ⟨⟨t, ht, hst, -⟩, -⟩ := ho
    simp only [visitStep, Work.step]
    by_cases hk : d.key = k
    · subst hk
      cases hr : d.willRetry with
      | false =>
        simp only [and_self, if_true, Bool.false_eq_true, if_false]
        exact get_settle_self
      | true =>
        simp only [true_and, Bool.true_eq_false, if_false, if_true]
        cases v with
        | none =>
          rw [show s.work.tasks[d.key]? = none from h] at ht
          cases ht
        | some g =>
          obtain ⟨t', ht', hof⟩ := h
          cases ht.symm.trans ht'
          have hs : t.status ≠ .interrupted := by rw [hst]; simp
          exact ⟨_, get_setStatus_self ht, hof.again hs (by simp) rfl rfl (hof.interrupt_eq hs)⟩
    · have hsame : (if d.key = k ∧ d.willRetry = false then none else v) = v := if_neg fun hand => hk hand.1
      rw [hsame]
      refine h.of_get ?_
      split
      · exact get_setStatus_ne hk
      · exact get_settle_ne hk
  | interrupted d =>
    obtain ⟨a, t, ht, hst, -⟩ := ho
    simp only [visitStep]
    by_cases hk : d.key = k
    · subst hk
      rw [if_pos rfl]
      cases v with
      | none =>
        rw [show s.work.tasks[d.key]? = none from h] at ht
        cases ht
      | some g =>
        obtain ⟨t', ht', hof⟩ := h
        cases ht.symm.trans ht'
        obtain ⟨payload, hb, -⟩ := hof.answer
        exact ⟨_, get_setStatus_self ht, by simp, fun _ => rfl, payload, hb, fun hc => by cases hc⟩
    · rw [if_neg hk]
      exact h.of_get (get_setStatus_ne hk)
  | nodeCancel d =>
    simp only [visitStep]
    by_cases hk : d.key = k
    · subst hk
      rw [if_pos rfl]
      exact get_settle_self
    · rw [if_neg hk]
      exact h.of_get (get_settle_ne hk)
  | childDone d => exact h.of_get (by show (s.work.finishChild d).tasks[k]? = _; rw [finishChild_tasks])
  | _ => exact h.of_get rfl

theorem visiting_kept {x : Ext} : Lasting x fl fun l s => Visiting k s.work.toOpen (visitOf k l) where
  new _ := get_empty
  alike h ha := by rw [← ha.work]; exact h
  step h hp hapt hf happ := by
    rw [visitOf_snoc, State.apply_work happ]
    exact h.step hp.offer hapt hf
  fork {l src req ev d s s'} h _ _ _ hd hstate happ := by
    have hwork := State.apply_forked_open hd hstate happ
    rw [visitOf_snoc, hwork, hd]
    exact h

/-! ## What a worker is handed -/

theorem Task.Of.carries (h : t.Of g) (hs : t.status ≠ .interrupted) (st : State) :
    Bears (st.contextView (some t)).resume (st.contextView (some t)).resumedBy (st.contextView (some t)).interrupt g.answer := by
  have hresume : (st.contextView (some t)).resume = t.resume := by
    simp only [State.contextView]
    split <;> split <;> rfl
  have hrest : (st.contextView (some t)).resumedBy = (if t.resume.isSome then t.resumedBy else "") ∧
      (st.contextView (some t)).interrupt = if t.resume.isSome then t.interrupt else none := by
    simp only [State.contextView]
    split <;> split <;> exact ⟨rfl, rfl⟩
  obtain ⟨payload, hb, hp⟩ := h.answer
  rw [hresume, hrest.1, hrest.2, hp (h.running hs)]
  cases ha : g.answer with
  | none =>
    rw [ha] at hb
    rw [hb.1]
    exact ⟨rfl, rfl, rfl⟩
  | some p =>
    rw [ha] at hb
    obtain ⟨h1, h2, h3, h4⟩ := hb
    rw [h1, h2]
    exact ⟨rfl, h2, h3, h4⟩

/-- A job is made of the task its attempt left. -/
theorem Dispatcher.job_context {disp : Dispatcher} {l : Look} {st : State} {ev : Event} {d : Event.Scheduled} {j : Job}
    (h : Effect.job j ∈ disp.job l st ev d) : ∃ t, st.tasks[d.key]? = some t ∧ j.context = st.contextView (some t) ∧
    j.key = d.key ∧ j.generation = d.generation ∧ j.attempt = d.attempt := by
  unfold Dispatcher.job at h
  split at h
  · cases h
  · rename_i t ht
    have made : ∀ {n : Node}, Effect.job j = .job (disp.jobOf st ev d n t) → ∃ t, st.tasks[d.key]? = some t ∧
        j.context = st.contextView (some t) ∧ j.key = d.key ∧ j.generation = d.generation ∧ j.attempt = d.attempt := by
      intro n he
      cases he
      exact ⟨t, ht, rfl, rfl, rfl, rfl⟩
    split at h
    · cases h
    · split at h
      · cases h
      · split at h
        · cases h
        · split at h
          · split at h
            · cases List.mem_singleton.1 h
            · exact made (List.mem_singleton.1 h)
          · exact made (List.mem_singleton.1 h)

/-- **An answer travels with its question.** The job of every attempt carries the resume that began its run and the payload
that resume answers; the job of a run that no resume began, as after a fresh visit, carries neither. -/
theorem answer_travels {x : Ext} {before : List Entry} {s' : State} {evs e₁ e₂ : List Event} {ev : Event} {d : Event.Scheduled}
    (hv : validate x fl = []) (h : Turn x fl before s req evs s') (he : evs = e₁ ++ ev :: e₂) (hd : ev.data = .scheduled d) :
    ∃ v s₂, visitOf d.key (moves before ++ e₁.map (fun ev => (req, ev)) ++ [(req, ev)]) = some v ∧
      replay (State.apply x.quote fl) s (e₁ ++ [ev]) = .ok s₂ ∧
      (visitOf d.key (moves before ++ e₁.map fun ev => (req, ev)) = none → v.answer = none) ∧
      ∀ (disp : Dispatcher) (l : Look) (st : State) (j : Job), s₂.Alike st → Effect.job j ∈ disp.job l st ev d →
        j.key = d.key ∧ j.generation = d.generation ∧ j.attempt = d.attempt ∧
          (j.context.resume.isSome = true ↔ v.answer.isSome = true) ∧
          Bears j.context.resume j.context.resumedBy j.context.interrupt v.answer := by
  have ck := checked_of_validate hv
  obtain ⟨base, s₁, s₂, hrep, hI, hsaid, happ, hI₂, -⟩ := (@visiting_kept fl d.key x).turn ck h he (by rw [hd]; rfl)
  have hwork : s₂.work = s₁.work.schedule d := by rw [State.apply_work happ, hd]; rfl
  have hget : s₂.work.tasks[d.key]? = some (s₁.work.taskOf d) := by
    rw [hwork]
    show (s₁.work.tasks.insert d.key _)[d.key]? = _
    rw [get_insert, if_pos rfl]
  cases hvis : visitOf d.key (moves before ++ e₁.map (fun ev => (req, ev)) ++ [(req, ev)]) with
  | none =>
    rw [hvis] at hI₂
    rw [show s₂.work.tasks[d.key]? = none from hI₂] at hget
    cases hget
  | some v =>
    rw [hvis] at hI₂
    obtain ⟨t, ht, hof⟩ := hI₂
    cases hget.symm.trans ht
    refine ⟨v, s₂, rfl, ?_, fun hnone => ?_, fun disp l st j ha hj => ?_⟩
    · rw [replay_append, hrep]
      show replay _ s₁ [ev] = _
      simp only [replay, happ]
    · rw [visitOf_snoc, hnone, hd] at hvis
      simp only [visitStep, if_true, Visit.scheduled, Option.some.injEq] at hvis
      rw [← hvis]
    · obtain ⟨t, htask, hctx, hkey, hgen, hatt⟩ := disp.job_context hj
      have hst : s₂.work.tasks[d.key]? = some t := by
        rw [ha.work]
        exact htask
      cases ht.symm.trans hst
      have hbears := hof.carries (by simp [Work.taskOf]) st
      rw [← hctx] at hbears
      refine ⟨hkey, hgen, hatt, ?_, hbears⟩
      cases hans : v.answer with
      | none =>
        rw [hans] at hbears
        rw [hbears.1]
        rfl
      | some p =>
        rw [hans] at hbears
        rw [hbears.1, hbears.2.1]
        rfl

end

/-! A draft that asks a question and is answered. -/

def askDraft : Command := ⟨"ask-1", .interrupt { key := "draft", generation := 1, attempt := 1, payload := some (.str "sure?") }⟩

def answerDraft : Command := ⟨"resume-1", .resume { node := "draft", value := some (.bool true), resumer := "editor" }⟩

def askedRun : State × List Entry :=
  (attend plainExt oneTask (State.new "r1") [] [(startReview, 1), (askDraft, 2)]).get (by decide +kernel)

/-- The jobs of an event that is applied to `s`. -/
def Dispatcher.jobsAfter (disp : Dispatcher) (s : State) (ev : Event) : List Effect :=
  match s.apply disp.x.quote disp.fl ev, ev.data with
  | .ok s₂, .scheduled d => disp.job {} s₂ ev d
  | _, _ => []

theorem askedRun_answered : ∃ s₂ ev d j, ev.data = .scheduled d ∧ replay (State.apply plainExt.quote oneTask) askedRun.1 [ev] = .ok s₂ ∧
    Effect.job j ∈ plainDispatcher.job {} s₂ ev d ∧ j.context.resume.isSome = true ∧ j.context.resumedBy = "editor" := by
  have hl : Lineage plainExt oneTask askedRun.1 askedRun.2 := (Lineage.new "r1").attend (Option.some_get _).symm
  have hrun : (decide plainExt oneTask askedRun.1 answerDraft 3).result.isOk = true ∧
      (let evs := (decide plainExt oneTask askedRun.1 answerDraft 3).events
       ((evs[0]?).bind fun ev => ev.schedules.map Attempt.key) = some "draft" ∧
       (evs[0]?).any (fun ev => (plainDispatcher.jobsAfter askedRun.1 ev).any (Effect.isJobOf "draft")) = true ∧
       (visitOf "draft" (moves askedRun.2 ++ [] ++ (evs.take 1).map fun ev => (.ask (.command answerDraft), ev))).map
         (fun v => v.answer.map fun a => a.1.resumer) = some (some "editor")) := by decide +kernel
  obtain ⟨hok, hfirst, hjobs, hvisit⟩ := hrun
  obtain ⟨ev, hev, hdata⟩ := Option.bind_eq_some_iff.1 hfirst
  have hsplit := eq_take_cons_drop hev
  cases hd : ev.data with
  | scheduled d =>
    rw [Event.schedules, hd] at hdata
    have hkey : d.key = "draft" := Option.some.inj hdata
    obtain ⟨v, s₂, hv, hrep, -, hjob⟩ := answer_travels oneTask_valid
      (Turn.own (.ask (.command answerDraft)) 3 hl rfl (Outcome.result_events hok)) hsplit hd
    rw [hsplit, hkey.symm] at hvisit
    have hans : v.answer.map (fun a => a.1.resumer) = some "editor" := by
      have := hvisit.symm.trans (congrArg _ hv)
      exact (Option.some.inj this).symm
    have happ : State.apply plainExt.quote oneTask askedRun.1 ev = .ok s₂ := by
      have hrep : replay (State.apply plainExt.quote oneTask) askedRun.1 [ev] = .ok s₂ := hrep
      simp only [replay] at hrep
      split at hrep
      · rename_i hs
        rw [hs, hrep]
      · cases hrep
    rw [hev, Option.any_some, Dispatcher.jobsAfter, show State.apply plainDispatcher.x.quote plainDispatcher.fl askedRun.1 ev = .ok s₂
      from happ, hd] at hjobs
    obtain ⟨e, hmem, hisJob⟩ := List.any_eq_true.1 hjobs
    cases e with
    | job j =>
    refine ⟨s₂, ev, d, j, hd, hrep, hmem, ?_⟩
    obtain ⟨-, -, -, hiff, hbears⟩ := hjob plainDispatcher {} s₂ j rfl hmem
    obtain ⟨p, hp, hby⟩ := Option.map_eq_some_iff.1 hans
    rw [hp] at hiff hbears
    exact ⟨hiff.2 rfl, hbears.2.2.1.trans hby⟩
    | _ => cases hisJob
  | _ => rw [Event.schedules, hd] at hdata; cases hdata

end Packtrail
