import Packtrail.Trace

/-
# Commands that are delivered twice

Commands are delivered at least once. A command that was decided finds nothing to do when it comes
again: the attempt, timer or child it names is gone and its number is not used again, a started
execution exists and a cancelled one is finished. `Quiet` says that a command finds nothing to do; it
holds after the command was decided (`Ask.quiet_after`), and an event keeps it unless it is the one that
creates what the command names (`CmdData.Quiet.step`).

Resume is the exception: it names a node or a key and no generation, so it also answers an interrupt
that came after it (`resume_again_iff`).
-/

namespace Packtrail

open Replay Emitter

/-! ## What was decided in between -/

/-- `Later x fl s log s' log'`: the execution went on from `s` to `s'`. -/
inductive Later (x : Ext) (fl : Flow) (s : State) (log : List (List Event)) : State → List (List Event) → Prop
  | refl : Later x fl s log s log
  | step {s₁ : State} {log₁ : List (List Event)} {evs : List Event} (h : Later x fl s log s₁ log₁) (req : Request) (now : Time)
      (hsrc : req.Sourced x fl) (hok : (req.perform x fl s₁ now).result = .ok evs) :
      Later x fl s log (req.perform x fl s₁ now).state (record log₁ evs)
  | reload {s₁ s₂ : State} {log₁ : List (List Event)} (h : Later x fl s log s₁ log₁) (ha : s₁.Alike s₂) : Later x fl s log s₂ log₁

section
variable {x : Ext} {fl : Flow} {base : Nat} {s s' : State} {log log' : List (List Event)}

theorem Later.path (wf : WellFormed fl) (h : Later x fl s log s' log') (hs : Settled fl base s) :
    Settled fl base s' ∧ ∃ more t, log' = log ++ more ∧
      Path (State.apply x.quote fl) (Promise fl base) s more.flatten t ∧ t.Alike s' := by
  induction h with
  | refl => exact ⟨hs, [], s, by simp, .nil s, .refl s⟩
  | @step s₁ log₁ evs _ req now _ hok ih =>
    obtain ⟨hs₁, more, t, rfl, hp, ha⟩ := ih
    have hd := perform_settled (x := x) wf hs₁ req now
    by_cases hne : evs = []
    · subst hne
      rw [hd.unchanged hok]
      exact ⟨hs₁, more, t, rfl, hp, ha⟩
    · obtain ⟨hp₁, hset⟩ := hd.wrote hok hne
      obtain ⟨t', hp', ha'⟩ := Path.alike ha.symm hp₁
      refine ⟨hset, more ++ [evs], t', ?_, ?_, ha'.symm⟩
      · rw [record, if_neg (by simpa using hne), List.append_assoc]
      · rw [List.flatten_append, List.flatten_singleton]
        exact hp.append hp'
  | reload _ ha ih =>
    obtain ⟨hs₁, more, t, hl, hp, ht⟩ := ih
    exact ⟨hs₁.alike ha, more, t, hl, hp, ht.trans ha⟩

end

/-! ## Commands that find nothing to do -/

/-- Whether what the command is about is open in `s`; for a start, whether `s` is of another flow. -/
def CmdData.reacts (s : State) : CmdData → Bool
  | .start p => s.flow != p.flow
  | .complete p => (current s p.toTaskRef).isSome
  | .fail p => (current s p.toTaskRef).isSome
  | .interrupt p => (current s p.toTaskRef).isSome
  | .timer p => (s.timers[p.timerID]?).isSome
  | .childDone p => (childOf s p.childID).isSome
  | .cancel _ => !s.status.terminal
  | _ => true

/-- `ev` schedules the attempt, sets the timer or starts the child that the command names. -/
def CmdData.madeBy (d : CmdData) (ev : Event) : Bool :=
  match d, ev.data with
  | .complete p, .scheduled e => e.key == p.key && (e.generation : Int) == p.generation && (e.attempt : Int) == p.attempt
  | .fail p, .scheduled e => e.key == p.key && (e.generation : Int) == p.generation && (e.attempt : Int) == p.attempt
  | .interrupt p, .scheduled e => e.key == p.key && (e.generation : Int) == p.generation && (e.attempt : Int) == p.attempt
  | .timer p, .timer tm => tm.id == p.timerID
  | .childDone p, .child e => e.childID == p.childID
  | _, _ => false

/-- Deciding the command on `s` does nothing. -/
structure CmdData.Quiet (d : CmdData) (s : State) : Prop where
  begun : 0 < s.events
  quiet : d.reacts s = false ∨ d.isStart = false ∧ d.isUpdate = false ∧ s.status.terminal = true

section
variable {x : Ext} {fl : Flow} {base : Nat} {s s' : State} {d : CmdData}

theorem current_alike (ha : s.Alike s') (ref : Cmd.TaskRef) : current s ref = current s' ref := by
  have : s.tasks = s'.tasks := show s.work.tasks = s'.work.tasks by rw [ha.work]
  rw [current, current, this]

theorem CmdData.Quiet.alike (h : d.Quiet s) (ha : s.Alike s') : d.Quiet s' := by
  refine ⟨ha.events ▸ h.begun, h.quiet.imp (fun hr => ?_) fun ⟨h1, h2, ht⟩ => ⟨h1, h2, ha.status ▸ ht⟩⟩
  have htimers : s.timers = s'.timers := show s.work.timers = s'.work.timers by rw [ha.work]
  have hchildren : s.children = s'.children := show s.work.children = s'.work.children by rw [ha.work]
  cases d with
  | start p => simpa only [reacts, ha.flow] using hr
  | complete p => simpa only [reacts, current_alike ha] using hr
  | fail p => simpa only [reacts, current_alike ha] using hr
  | interrupt p => simpa only [reacts, current_alike ha] using hr
  | timer p => simpa only [reacts, htimers] using hr
  | childDone p => simpa only [reacts, childOf, hchildren] using hr
  | cancel p => simpa only [reacts, ha.status] using hr
  | _ => cases hr

/-- An attempt that is not in flight is not in flight after an event that does not schedule it. -/
theorem current_step {ref : Cmd.TaskRef} {p : Payload} (ho : Offer fl base s p) (hb : p.begins = false)
    (hw : s'.work = s.work.step p) (h : current s ref = none)
    (hnew : ∀ e, p = .scheduled e → ¬(e.key = ref.key ∧ (e.generation : Int) = ref.generation ∧ (e.attempt : Int) = ref.attempt)) :
    current s' ref = none := by
  cases hcur : current s' ref with
  | none => rfl
  | some t =>
    obtain ⟨ht, hst, hg, ha⟩ := current_some hcur
    have ht : (s.work.step p).tasks[ref.key]? = some t := hw ▸ ht
    cases task_step ho hb ht with
    | kept hk =>
      have : current s ref = some t := by
        simp only [current, show s.tasks[ref.key]? = some t from hk, hg, ha, hst, and_self, if_true]
      cases h.symm.trans this
    | scheduled e hp hk htask =>
      subst htask
      exact absurd ⟨hk, hg, ha⟩ (hnew e hp)
    | retrying e t₀ hp _ _ _ htask => subst htask; cases hst
    | interrupted e t₀ hp _ _ htask => subst htask; cases hst

theorem childOf_none {id : String} (h : ∀ (k : String) (ch : ChildState), s.children[k]? = some ch → ch.childID ≠ id) :
    childOf s id = none := by
  unfold childOf
  rw [List.find?_eq_none]
  rintro ⟨k, ch⟩ hmem he
  exact h k ch (Std.ExtTreeMap.mem_toList_iff_getElem?_eq_some.1 hmem) (by simpa using he)

theorem childOf_none_iff {id : String} :
    childOf s id = none ↔ ∀ (k : String) (ch : ChildState), s.children[k]? = some ch → ch.childID ≠ id := by
  refine ⟨fun h k ch hget he => ?_, childOf_none⟩
  have := List.find?_eq_none.1 h (k, ch) (Std.ExtTreeMap.mem_toList_iff_getElem?_eq_some.2 hget)
  exact this (by simpa using he)

/-- **One event in between.** -/
theorem CmdData.Quiet.step {ev : Event} (h : d.Quiet s) (hp : Promise fl base s ev) (ha : s.apply x.quote fl ev = .ok s')
    (hnew : d.madeBy ev = false) : d.Quiet s' := by
  have hb : ev.data.begins = false := by
    cases hbeg : ev.data.begins with
    | false => rfl
    | true => exact absurd (hp.begins.1 hbeg) h.begun.ne'
  have hw := State.apply_work ha
  have hr : d.reacts s = false := h.quiet.resolve_right fun ht => by cases ht.2.2.symm.trans hp.unended
  refine ⟨by rw [hp.events ha]; exact Nat.succ_pos _, .inl ?_⟩
  have task : ∀ ref : Cmd.TaskRef, (current s ref).isSome = false →
      (∀ e, ev.data = .scheduled e → ¬(e.key = ref.key ∧ (e.generation : Int) = ref.generation ∧ (e.attempt : Int) = ref.attempt)) →
      (current s' ref).isSome = false := by
    intro ref hcur hne
    rw [Option.isSome_eq_false_iff, Option.isNone_iff_eq_none] at hcur ⊢
    exact current_step hp.offer hb hw hcur hne
  cases d with
  | start p =>
    simp only [reacts] at hr ⊢
    rw [hp.flow h.begun ha]
    exact hr
  | complete p => exact task _ hr fun e he => by simpa [madeBy, he] using hnew
  | fail p => exact task _ hr fun e he => by simpa [madeBy, he] using hnew
  | interrupt p => exact task _ hr fun e he => by simpa [madeBy, he] using hnew
  | timer p =>
    simp only [reacts, Option.isSome_eq_false_iff, Option.isNone_iff_eq_none] at hr ⊢
    cases htm : s'.timers[p.timerID]? with
    | none => rfl
    | some tm =>
      rcases timer_step hp.offer hb (hw ▸ htm : (s.work.step ev.data).timers[p.timerID]? = some tm) with hk | ⟨he, hid⟩
      · cases hr.symm.trans hk
      · simp [madeBy, he, hid] at hnew
  | childDone p =>
    simp only [reacts, Option.isSome_eq_false_iff, Option.isNone_iff_eq_none, childOf_none_iff] at hr ⊢
    intro k ch hch
    rcases child_step hp.offer hb (hw ▸ hch : (s.work.step ev.data).children[k]? = some ch) with hk | ⟨e, he, -, hid⟩
    · exact hr k ch hk
    · intro hc
      simp [madeBy, he, hid.symm.trans hc] at hnew
  | cancel p =>
    rw [reacts, hp.unended] at hr
    cases hr
  | _ => cases hr

/-- And a whole run of them. -/
theorem CmdData.Quiet.run {evs : List Event} (h : d.Quiet s)
    (hp : Path (State.apply x.quote fl) (Promise fl base) s evs s') (hnew : ∀ ev ∈ evs, d.madeBy ev = false) : d.Quiet s' := by
  induction hp with
  | nil => exact h
  | cons guard ok _ ih =>
    exact ih (h.step guard ok (hnew _ List.mem_cons_self)) fun ev hev => hnew ev (List.mem_cons_of_mem _ hev)

theorem runDecision_nothing {f : State → DecM Unit} (h : f s = pure ()) : runDecision (getSt >>= f) s = ⟨.ok [], s⟩ := by
  unfold runDecision
  rw [show (getSt >>= f) { st := s, out := [], aux := [] } = f s { st := s, out := [], aux := [] } from rfl, h]
  rfl

theorem start_joins {c : Ctx} {p : Cmd.StartData} (hex : s.exists = true) (hj : s.flow = p.flow) :
    runDecision (start c p) s = ⟨.ok [], s⟩ := by
  unfold start
  exact runDecision_nothing (by simp only [hex, if_true, checkJoin, hj])

/-- The program of a command that finds nothing to do. -/
theorem decideData_nothing {c : Ctx} (hex : s.exists = true) (hr : d.reacts s = false) (hlive : s.status.terminal = false) :
    runDecision (decideData c d) s = ⟨.ok [], s⟩ := by
  cases d with
  | start p => exact start_joins hex (by simpa [CmdData.reacts] using hr)
  | complete p =>
    have hc : current s p.toTaskRef = none := by simpa [CmdData.reacts] using hr
    unfold decideData complete
    exact runDecision_nothing (by simp only [hc])
  | fail p =>
    have hc : current s p.toTaskRef = none := by simpa [CmdData.reacts] using hr
    unfold decideData failTask
    exact runDecision_nothing (by simp only [hc])
  | interrupt p =>
    have hc : current s p.toTaskRef = none := by simpa [CmdData.reacts] using hr
    unfold decideData interrupt
    exact runDecision_nothing (by simp only [hc])
  | timer p =>
    have hc : s.timers[p.timerID]? = none := by
      simpa only [CmdData.reacts, Option.isSome_eq_false_iff, Option.isNone_iff_eq_none] using hr
    unfold decideData timer
    exact runDecision_nothing (by simp only [hc])
  | childDone p =>
    have hc : s.children.toList.find? (fun kc => kc.2.childID == p.childID) = none := by
      simpa only [CmdData.reacts, childOf, Option.isSome_eq_false_iff, Option.isNone_iff_eq_none] using hr
    unfold decideData childDone
    exact runDecision_nothing (by simp only [hc])
  | cancel p => rw [CmdData.reacts, hlive] at hr; cases hr
  | _ => cases hr

/-- **A quiet command writes nothing and changes nothing.** -/
theorem CmdData.Quiet.decide {cmd : Command} (h : cmd.data.Quiet s) (now : Time) :
    Packtrail.decide x fl s cmd now = ⟨.ok [], s⟩ := by
  have hex : s.exists = true := by simpa [State.exists] using h.begun
  unfold Packtrail.decide
  by_cases hs : cmd.data.isStart = true
  · rw [if_pos hs]
    rcases decideData_start _ hs with ⟨p, hp⟩ | ⟨t, e, hp⟩
    · rcases h.quiet with hr | ⟨hns, -⟩
      · -- a start does not look at the status
        rw [hp] at hr ⊢
        exact start_joins hex (by simpa [reacts] using hr)
      · cases hs.symm.trans hns
    · have hq := h.quiet
      rw [hp] at hs hq
      rcases hq with hr | ⟨hns, -⟩
      · cases hr
      · cases hs.symm.trans hns
  · rw [if_neg hs, if_neg (by simp [hex])]
    split
    · rename_i ht
      split
      · rename_i hu
        rcases h.quiet with hr | ⟨-, hnu, -⟩
        · cases hd : cmd.data <;> rw [hd] at hu hr <;> first | cases hu; done | cases hr
        · cases hu.symm.trans hnu
      · rfl
    · rename_i ht
      have ht : s.status.terminal = false := by simpa using ht
      rcases h.quiet with hr | ⟨-, -, ht'⟩
      · exact decideData_nothing hex hr ht
      · cases ht.symm.trans ht'

/-! ## After the first decision -/

theorem current_over {ref : Cmd.TaskRef} {t : Task} (ht : current s ref = some t) (hkey : t.key = ref.key)
    (h : s'.work.Over t.key t.generation t.attempt) : (current s' ref).isSome = false := by
  rw [Option.isSome_eq_false_iff, Option.isNone_iff_eq_none]
  cases hcur : current s' ref with
  | none => rfl
  | some t' =>
    obtain ⟨-, -, hg, ha⟩ := current_some ht
    obtain ⟨ht', hst', hg', ha'⟩ := current_some hcur
    rw [hkey] at h
    rcases h.2 t' ht' (by omega) with hlt | ⟨-, hne⟩
    · omega
    · exact absurd hst' hne

/-- The commands whose redelivery is harmless; a start is one of this flow. -/
def CmdData.redeliverable (fl : Flow) : CmdData → Bool
  | .start p => p.flow == fl.name
  | .complete _ | .fail _ | .interrupt _ | .timer _ | .childDone _ | .cancel _ => true
  | _ => false

/-- The program of a command leaves nothing of what it was about. -/
theorem decideData_quiet (wf : WellFormed fl) (hu : Unfinished fl base s) (hr : s.work.Rested fl base)
    (hd : d.redeliverable fl = true) (hreacts : d.reacts s = true) (hns : d.isStart = false) {c : Ctx} (hc : c.fl = fl)
    {evs : List Event} (hok : (runDecision (decideData c d) s).result = .ok evs) :
    d.Quiet (runDecision (decideData c d) s).state := by
  subst hc
  -- the program ended without error, in a state its specification describes
  have post : ∀ {Q : Unit → State → Prop}, Holds c base (decideData c d) s Q → Q () (runDecision (decideData c d) s).state := by
    intro Q h
    rcases h.result with ⟨_, -, -, hq⟩ | ⟨e, he, -⟩
    · exact hq
    · cases hok.symm.trans he
  have begun : ∀ {s' : State}, Settled c.fl base s' → 0 < s'.events := fun h => by simpa [State.exists] using h.exists
  have task : ∀ {ref : Cmd.TaskRef} {s' : State}, (current s ref).isSome = true →
      (∀ t, current s ref = some t → s'.work.Over t.key t.generation t.attempt) → (current s' ref).isSome = false := by
    intro ref s' hcur hover
    obtain ⟨t, ht⟩ := Option.isSome_iff_exists.1 hcur
    exact current_over ht (hu.sound.task (current_some ht).1).key (hover t ht)
  cases d with
  | start p => cases hns
  | complete p =>
    obtain ⟨hset, hover⟩ := post (complete_runs wf hu hr p)
    exact ⟨begun hset, .inl (task hreacts hover)⟩
  | fail p =>
    obtain ⟨hset, hover⟩ := post (failTask_runs wf hu hr p)
    exact ⟨begun hset, .inl (task hreacts hover)⟩
  | interrupt p =>
    obtain ⟨hset, hover⟩ := post (interrupt_runs hu hr p)
    exact ⟨begun hset, .inl (task hreacts hover)⟩
  | timer p =>
    obtain ⟨hset, hover⟩ := post (timer_runs wf hu hr p)
    obtain ⟨tm, htm⟩ := Option.isSome_iff_exists.1 hreacts
    refine ⟨begun hset, .inl ?_⟩
    rw [CmdData.reacts, Option.isSome_eq_false_iff, Option.isNone_iff_eq_none]
    exact (hover tm htm).1
  | childDone p =>
    obtain ⟨hset, hover⟩ := post (childDone_runs wf hu hr p)
    obtain ⟨kc, hkc⟩ := Option.isSome_iff_exists.1 hreacts
    refine ⟨begun hset, .inl ?_⟩
    rw [CmdData.reacts, Option.isSome_eq_false_iff, Option.isNone_iff_eq_none]
    exact childOf_none fun k ch hget => (hover kc hkc).1 hget
  | cancel p =>
    have he := post (cancel_ends hu.live p)
    exact ⟨he.begun, .inr ⟨rfl, rfl, he.status⟩⟩
  | _ => cases hd

theorem CmdData.quiet_after (wf : WellFormed fl) {cmd : Command} (hd : cmd.data.redeliverable fl = true)
    (hs : s.Absent ∨ Settled fl base s) {now : Time} {evs : List Event} (hok : (decide x fl s cmd now).result = .ok evs) :
    cmd.data.Quiet (Packtrail.decide x fl s cmd now).state := by
  by_cases hq : cmd.data.Quiet s
  · rw [hq.decide]; exact hq
  revert hok
  unfold Packtrail.decide
  by_cases hst : cmd.data.isStart = true
  · rw [if_pos hst]
    rcases decideData_start _ hst with ⟨p, hp⟩ | ⟨t, e, hp⟩
    · rw [hp] at hd hq ⊢
      have hname : p.flow = fl.name := by simpa [redeliverable] using hd
      show (runDecision (Packtrail.start ⟨x, fl, now, cmd.id⟩ p) s).result = .ok evs →
        (CmdData.start p).Quiet (runDecision (Packtrail.start ⟨x, fl, now, cmd.id⟩ p) s).state
      intro hok
      rcases hs with habs | hset
      · rcases (start_runs (c := ⟨x, fl, now, cmd.id⟩) wf habs p).result with ⟨_, -, -, hset, hf⟩ | ⟨e, he, -⟩
        · exact ⟨by simpa [State.exists] using hset.exists, .inl (by simpa [reacts, hname] using hf)⟩
        · cases hok.symm.trans he
      · -- it exists and is of another flow: the start was refused
        have hne : s.flow ≠ p.flow := fun he =>
          hq ⟨by simpa [State.exists] using hset.exists, .inl (by simpa [reacts] using he)⟩
        have : runDecision (Packtrail.start ⟨x, fl, now, cmd.id⟩ p) s =
            ⟨.error (.conflict (s.execID ++ " is an execution of " ++ s.flow ++ ", not " ++ p.flow)), s⟩ := by
          have hget : ∀ g : State → DecM Unit, (getSt >>= g) ⟨s, [], []⟩ = g s ⟨s, [], []⟩ := fun _ => rfl
          unfold Packtrail.start runDecision
          rw [hget]
          simp only [hset.exists, if_true, checkJoin, hne, if_false]
          rfl
        cases hok.symm.trans (congrArg Outcome.result this)
    · rw [hp] at hd
      cases hd
  · rw [if_neg hst]
    rcases hs with habs | hset
    · simp only [habs.not_exists]
      intro hok
      cases hok
    · simp only [hset.exists, Bool.not_true, Bool.false_eq_true, if_false]
      have hnu : cmd.data.isUpdate = false := by
        cases hdd : cmd.data <;> rw [hdd] at hd <;> first | rfl | cases hd
      have begun : 0 < s.events := by simpa [State.exists] using hset.exists
      rcases hset with he | ⟨hu, hr⟩
      · exact absurd ⟨begun, .inr ⟨by simpa using hst, hnu, he.status⟩⟩ hq
      · rw [if_neg (by simp [hu.live.unended])]
        have hreacts : cmd.data.reacts s = true := by
          cases hreacts : cmd.data.reacts s with
          | true => rfl
          | false => exact absurd ⟨begun, .inl hreacts⟩ hq
        exact decideData_quiet wf hu hr hd hreacts (by simpa using hst) rfl

end

/-! ## Redelivery -/

/-- What may be delivered again: a fork, or a command that is not a signal, a resume or an update. -/
def Ask.redeliverable (fl : Flow) : Ask → Bool
  | .command cmd => cmd.data.redeliverable fl
  | .fork .. => true

/-- `ev` creates what the command names. -/
def Ask.madeBy (ev : Event) : Ask → Bool
  | .command cmd => cmd.data.madeBy ev
  | .fork .. => false

/-- **Redelivery is harmless.** A command that was decided without error does nothing when it is decided
again, whatever was decided in between, as long as that did not first schedule the attempt, set the
timer or start the child the command names. -/
theorem redelivery_harmless {x : Ext} {fl : Flow} {s s' : State} {log more : List (List Event)} {a : Ask} {now : Time}
    {evs : List Event} (hv : validate x fl = []) (h : Reachable x fl s log) (ha : a.redeliverable fl = true)
    (hsrc : (Request.ask a).Sourced x fl) (hok : (a.decide x fl s now).result = .ok evs)
    (hl : Later x fl (a.decide x fl s now).state (record log evs) s' (record log evs ++ more))
    (hnew : ∀ ev ∈ more.flatten, a.madeBy ev = false) (again : Time) :
    (a.decide x fl s' again).result = .ok [] := by
  have wf := wellFormed_of_validate hv
  have htr := h.tracked wf
  have hreach : Tracked x fl (a.decide x fl s now).state (record log evs) :=
    htr.perform wf (.ask a) (hsrc.ok wf) now hok
  -- the execution exists now, and what follows is a path from here
  have after : (a.decide x fl s now).state.exists = true → ∃ base t, Settled fl base s' ∧
      Path (State.apply x.quote fl) (Promise fl base) (a.decide x fl s now).state more.flatten t ∧ t.Alike s' := by
    intro hex
    obtain ⟨hs', more', t, hlog, hp, ht⟩ := hl.path wf (hreach.settled hex)
    rw [List.append_cancel_left hlog]
    exact ⟨_, t, hs', hp, ht⟩
  cases a with
  | fork src source seq cmdID writes =>
    have hex : ((Ask.fork src source seq cmdID writes).decide x fl s now).state.exists = true := by
      cases htr with
      | absent _ habs _ =>
        obtain ⟨b, hb⟩ := hsrc.ok wf src rfl
        simp only [Ask.decide, decideFork, habs.not_exists, Bool.false_eq_true, if_false] at hok ⊢
        rcases (forkProg_runs (c := ⟨x, fl, now, cmdID⟩) wf habs hb source seq writes).result with ⟨_, -, -, hset⟩ | ⟨e, he, -⟩
        · exact hset.1.exists
        · cases hok.symm.trans he
      | present hs _ _ => simp only [Ask.decide, decideFork, hs.exists, if_true]
    obtain ⟨base, t, hs', -⟩ := after hex
    simp only [Ask.decide, decideFork, hs'.exists, if_true]
  | command cmd =>
    have hq : cmd.data.Quiet ((Ask.command cmd).decide x fl s now).state := by
      cases htr with
      | absent _ habs _ => exact @CmdData.quiet_after _ _ 0 _ wf _ ha (.inl habs) _ _ hok
      | present hs _ _ => exact CmdData.quiet_after wf ha (.inr hs) hok
    obtain ⟨base, t, hs', hp, ht⟩ := after (by simpa [State.exists] using hq.begun)
    exact congrArg Outcome.result (((hq.run hp hnew).alike ht).decide again)

theorem complete_redelivered :
    (decide plainExt oneTask startedReview.state completeDraft 2).events.length = 2 ∧
      (decide plainExt oneTask doneReview.state completeDraft 3).result = .ok [] := by
  refine ⟨by decide +kernel, ?_⟩
  have hok : doneReview.result = .ok doneReview.events := Outcome.result_events (by decide +kernel)
  have hl : Later plainExt oneTask doneReview.state reviewLog doneReview.state (reviewLog ++ []) := by
    rw [List.append_nil]
    exact .refl
  exact redelivery_harmless (a := .command completeDraft) oneTask_valid startedReview_reachable rfl (Ask.sourced_command _ _ _)
    hok hl (fun _ hev => by cases hev) 3

/-- One task of at most two attempts. -/
def twoTries : Flow :=
  { version := "1", name := "review"
    nodes := [{ id := "draft", type := .task, kind := "write", retry := some { maxAttempts := 2 } }] }

def startedTries : Outcome := decide plainExt twoTries (State.new "r1") startReview 1

/-- A result for the second attempt, before there is one. -/
def completeSecond : Command := ⟨"done-2", .complete { key := "draft", generation := 1, attempt := 2 }⟩

def failFirst : Command := ⟨"fail-1", .fail { key := "draft", generation := 1, attempt := 1, error := "no", retryable := true }⟩

def retryDraft : Command := ⟨"timer-1", .timer ⟨"t2"⟩⟩

def failedOnce : Outcome := decide plainExt twoTries startedTries.state failFirst 3

def triedTwice : Outcome := decide plainExt twoTries failedOnce.state retryDraft 4

/-- A command that comes before the attempt it names is ignored, and takes effect when it comes again. -/
theorem early_command_takes_effect :
    validate plainExt twoTries = [] ∧ Reachable plainExt twoTries startedTries.state (record [] startedTries.events) ∧
    decide plainExt twoTries startedTries.state completeSecond 2 = ⟨.ok [], startedTries.state⟩ ∧
    Later plainExt twoTries startedTries.state (record [] startedTries.events) triedTwice.state
      (record (record (record [] startedTries.events) failedOnce.events) triedTwice.events) ∧
    (decide plainExt twoTries triedTwice.state completeSecond 5).events ≠ [] := by
  refine ⟨by decide +kernel, (Reachable.new "r1").command startReview 1 (by decide +kernel), ?_, ?_, ?_⟩
  · exact CmdData.Quiet.decide ⟨by decide +kernel, .inl (by decide +kernel)⟩ 2
  · exact (Later.refl.step (.ask (.command failFirst)) 3 (Ask.sourced_command _ _ _)
      (Outcome.result_events (by decide +kernel))).step (.ask (.command retryDraft)) 4 (Ask.sourced_command _ _ _)
      (Outcome.result_events (by decide +kernel))
  · have : (decide plainExt twoTries triedTwice.state completeSecond 5).events.length = 2 := by decide +kernel
    intro he
    rw [he] at this
    cases this

/-! ## Resume -/

section
variable {c : Ctx} {d : Decider}

theorem emit_ok {p : Payload} {s₁ : State} (hp : p.plain = true)
    (ok : d.st.applyData c.x.quote c.fl (c.event p d.st) = .ok s₁) :
    emit c p d = .ok () { d with st := s₁.finish (c.event p d.st), out := d.out ++ [c.event p d.st] } := by
  obtain ⟨hi, hf, -⟩ := State.expectedIndex_event (c := c) (s := d.st) (.inl hp)
  have happ : c.apply d.st (c.event p d.st) = .ok (s₁.finish (c.event p d.st)) :=
    State.apply_ok.2 ⟨.inr ((c.event_index p d.st hf).trans hi.symm), s₁, ok, rfl⟩
  unfold emit emitWith
  rw [happ]

theorem timerAt_ok (purpose : TimerPurpose) (after : Int) (key node : String) (gen attempt : Nat) :
    ∃ d' evs, timerAt c purpose after key node gen attempt d = .ok () d' ∧ d'.out = d.out ++ evs := by
  refine ⟨_, _, emit_ok (d := d) (p := .timer ⟨timerID d.st.alloc, d.st.alloc, c.now + after, purpose, key, node, gen, attempt⟩) rfl rfl, rfl⟩

/-- Scheduling an attempt always succeeds. -/
theorem schedule_ok (n : Node) (key owner : String) (index : Nat) (item : Raw) (rs : Resumption) (gen attempt : Nat) :
    ∃ d' evs, schedule c n key owner index item rs gen attempt d = .ok () d' ∧
      d'.out = d.out ++ c.event (.scheduled (scheduledOf d.st n key owner index item rs gen attempt)) d.st :: evs := by
  obtain ⟨d₁, hd₁, hout₁⟩ : ∃ d₁, emit c (.scheduled (scheduledOf d.st n key owner index item rs gen attempt)) d = .ok () d₁ ∧
      d₁.out = d.out ++ [c.event (.scheduled (scheduledOf d.st n key owner index item rs gen attempt)) d.st] :=
    ⟨_, emit_ok rfl rfl, rfl⟩
  by_cases ht : 0 < n.timeout
  · obtain ⟨d₂, evs, hd₂, hout₂⟩ :=
      timerAt_ok (c := c) (d := d₁) .timeout n.timeout key n.id (if gen = 0 then d.st.alloc else gen) attempt
    refine ⟨d₂, evs, ?_, by rw [hout₂, hout₁, List.append_assoc]; rfl⟩
    show EStateM.bind (emit c (.scheduled (scheduledOf d.st n key owner index item rs gen attempt))) _ d = _
    simp only [EStateM.bind, hd₁, if_pos ht, hd₂]
  · refine ⟨d₁, [], ?_, hout₁⟩
    show EStateM.bind (emit c (.scheduled (scheduledOf d.st n key owner index item rs gen attempt))) _ d = _
    simp only [EStateM.bind, hd₁, if_neg ht]
    rfl

end

section
variable {x : Ext} {fl : Flow} {base : Nat} {s : State} {p : Cmd.ResumeData}

/-- A resume that finds an interrupted task runs it again with the value it carries. -/
theorem resume_schedules {c : Ctx} (hu : Unfinished c.fl base s) {k : String} {t : Task}
    (hfind : s.tasks.toList.find? (fun kt => resumes p kt.1 kt.2) = some (k, t)) :
    ∃ ev e evs, (runDecision (resume c p) s).result = .ok (ev :: evs) ∧ ev.data = .scheduled e ∧
      e.resume = some p.value.encoded := by
  have ht : s.tasks[k]? = some t := Std.ExtTreeMap.mem_toList_iff_getElem?_eq_some.1 (List.mem_of_find?_eq_some hfind)
  obtain ⟨n, hn, -⟩ := (hu.sound.task ht).node
  obtain ⟨d', evs, hd, hout⟩ := schedule_ok (c := c) (d := ⟨s, [], []⟩) n t.key t.owner t.index t.item
    ⟨some p.value.encoded, p.resumer⟩ 0 1
  refine ⟨c.event (.scheduled (scheduledOf s n t.key t.owner t.index t.item ⟨some p.value.encoded, p.resumer⟩ 0 1)) s, _, evs,
    ?_, rfl, rfl⟩
  have hrun : resume c p ⟨s, [], []⟩ = .ok () d' := by
    have hget : ∀ g : State → DecM Unit, (getSt >>= g) ⟨s, [], []⟩ = g s ⟨s, [], []⟩ := fun _ => rfl
    unfold resume
    rw [hget, hfind]
    show EStateM.bind (nodeOf c t.node) _ _ = _
    simp only [nodeOf, hn]
    exact hd
  unfold runDecision
  rw [hrun]
  simp only [hout, List.nil_append]

theorem find_resumes_none :
    s.tasks.toList.find? (fun kt => resumes p kt.1 kt.2) = none ↔
      ∀ (k : String) (t : Task), s.tasks[k]? = some t → resumes p k t = false := by
  rw [List.find?_eq_none]
  refine ⟨fun h k t hget => by simpa using h (k, t) (Std.ExtTreeMap.mem_toList_iff_getElem?_eq_some.2 hget), ?_⟩
  rintro h ⟨k, t⟩ hmem
  simpa using h k t (Std.ExtTreeMap.mem_toList_iff_getElem?_eq_some.1 hmem)

end

/-- **When a redelivered resume is harmless.** A resume that scheduled a run schedules nothing when it is
decided again if and only if it finds no interrupted task of the key it names, or of the node if it names
no key. The id of the command plays no part. -/
theorem resume_again_iff {x : Ext} {fl : Flow} {s s' : State} {log log' : List (List Event)} {id : String} {p : Cmd.ResumeData}
    {now : Time} {evs : List Event} (hv : validate x fl = []) (h : Reachable x fl s log)
    (hok : (decide x fl s ⟨id, .resume p⟩ now).result = .ok evs) (hsch : scheduled evs ≠ [])
    (hl : Later x fl (decide x fl s ⟨id, .resume p⟩ now).state (record log evs) s' log') (again : Time) :
    (∀ evs', (decide x fl s' ⟨id, .resume p⟩ again).result = .ok evs' → scheduled evs' = []) ↔
      ∀ (k : String) (t : Task), s'.tasks[k]? = some t → resumes p k t = false := by
  have wf := wellFormed_of_validate hv
  have htr : Tracked x fl (decide x fl s ⟨id, .resume p⟩ now).state (record log evs) :=
    (h.tracked wf).perform wf (.ask (.command ⟨id, .resume p⟩)) (fun _ hs => by cases hs) now hok
  have hset : ∃ base, Settled fl base s' := by
    cases htr with
    | absent hlog _ _ =>
      -- something was written
      have hne : evs ≠ [] := fun he => hsch (by rw [he]; rfl)
      rw [record, if_neg (by simpa using hne)] at hlog
      simp at hlog
    | present hs _ _ => exact ⟨_, (hl.path wf hs).1⟩
  obtain ⟨base, hset⟩ := hset
  have hdec : decide x fl s' ⟨id, .resume p⟩ again =
      if s'.status.terminal then ⟨.ok [], s'⟩ else runDecision (resume ⟨x, fl, again, id⟩ p) s' := by
    unfold decide
    rw [if_neg (by simp [CmdData.isStart]), if_neg (by simp [hset.exists])]
    rfl
  rw [hdec]
  rcases hset with he | ⟨hu, -⟩
  · rw [if_pos he.status]
    refine ⟨fun _ k t hget => (he.idle.no_task hget).elim, fun _ evs' hr => ?_⟩
    cases hr
    rfl
  · rw [if_neg (by simp [hu.live.unended]), ← find_resumes_none]
    cases hfind : s'.tasks.toList.find? (fun kt => resumes p kt.1 kt.2) with
    | none =>
      refine ⟨fun _ => rfl, fun _ evs' hr => ?_⟩
      have hnothing : runDecision (resume ⟨x, fl, again, id⟩ p) s' = ⟨.ok [], s'⟩ := by
        unfold resume
        exact runDecision_nothing (by simp only [hfind])
      rw [hnothing] at hr
      cases hr
      rfl
    | some kt =>
      obtain ⟨ev, e, rest, hr, hdata, -⟩ := resume_schedules (c := ⟨x, fl, again, id⟩) hu hfind
      refine ⟨fun hall => ?_, fun hno => by cases hno⟩
      have := hall _ hr
      simp [scheduled, Event.schedules, hdata] at this

/-! ### Two interrupts of one task -/

def askReview (generation : Int) : Command := ⟨"ask", .interrupt { key := "draft", generation, attempt := 1 }⟩

def answer : Command := ⟨"answer-1", .resume { node := "draft", value := some (.str "yes") }⟩

def asked : Outcome := decide plainExt oneTask startedReview.state (askReview 1) 2

def answered : Outcome := decide plainExt oneTask asked.state answer 3

def askedAgain : Outcome := decide plainExt oneTask answered.state (askReview 3) 4

def askedLog : List (List Event) := record (record [] startedReview.events) asked.events

/-- What the interrupts and the answer evaluate to. -/
theorem answered_evaluates : asked.result.isOk = true ∧ answered.result.isOk = true ∧ askedAgain.result.isOk = true ∧
    scheduled answered.events = [⟨"draft", 3, 1⟩] := by
  decide +kernel

theorem asked_reachable : Reachable plainExt oneTask asked.state askedLog :=
  startedReview_reachable.command (askReview 1) 2 answered_evaluates.1

theorem answered_ok : (decide plainExt oneTask asked.state answer 3).result = .ok answered.events :=
  Outcome.result_events answered_evaluates.2.1

theorem askedAgain_later : Later plainExt oneTask answered.state (record askedLog answered.events) askedAgain.state
    (record (record askedLog answered.events) askedAgain.events) :=
  Later.refl.step (.ask (.command (askReview 3))) 4 (Ask.sourced_command _ _ _) (Outcome.result_events answered_evaluates.2.2.1)

/-- Delivered again right after it was decided, the answer finds nothing to resume. -/
theorem answer_redelivered : scheduled answered.events = [⟨"draft", 3, 1⟩] ∧
    ∀ evs', (decide plainExt oneTask answered.state answer 4).result = .ok evs' → scheduled evs' = [] := by
  have hsch := answered_evaluates.2.2.2
  refine ⟨hsch, (resume_again_iff oneTask_valid asked_reachable answered_ok (by rw [hsch]; simp) .refl 4).2 ?_⟩
  refine find_resumes_none.1 ?_
  rw [← Option.isNone_iff_eq_none]
  decide +kernel

/-- `ev` schedules a run resumed with the text `v`. -/
def Event.resumedWith (ev : Event) (v : String) : Bool :=
  match ev.data with
  | .scheduled e =>
    match e.resume with
    | some (.str w) => w == v
    | _ => false
  | _ => false

/-- Delivered again after a second interrupt, the answer to the first one answers it. -/
theorem answer_answers_twice :
    validate plainExt oneTask = [] ∧ Reachable plainExt oneTask asked.state askedLog ∧
    (decide plainExt oneTask asked.state answer 3).result = .ok answered.events ∧
    scheduled answered.events = [⟨"draft", 3, 1⟩] ∧
    Later plainExt oneTask answered.state (record askedLog answered.events) askedAgain.state
      (record (record askedLog answered.events) askedAgain.events) ∧
    scheduled (decide plainExt oneTask askedAgain.state answer 5).events = [⟨"draft", 5, 1⟩] ∧
    (decide plainExt oneTask askedAgain.state answer 5).events.any (·.resumedWith "yes") = true :=
  ⟨oneTask_valid, asked_reachable, answered_ok, answered_evaluates.2.2.2, askedAgain_later, by decide +kernel, by decide +kernel⟩

end Packtrail
