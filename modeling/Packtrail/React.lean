import Packtrail.Settle

/-
# Signals, timers, children and updates

The rest of the commands an unfinished execution reacts to. A timer that fires is gone, so the timer
programs start from a state in which the one thing that relied on it may be without a wake-up; the
lemmas on `fired` say that nothing else is.
-/

namespace Packtrail

open Emitter

section
variable {c : Ctx} {base : Nat} {s : State}

/-! ## Signals -/

variable {fl : Flow} {w : Work} {id : String} {tm : Timer} {ch : ChildState}

/-- A signal nobody waits for is only buffered. -/
theorem Progress.buffer {w' : Work} {b : Buffered} (h : Progress fl w) (ho : w'.toOpen = w.toOpen)
    (hb : w'.buffered = w.buffered ++ [b])
    (hno : ∀ (k : String) (a : AwaitState), w.awaits[k]? = some a → a.signal ≠ b.name) : Progress fl w' := by
  cases h with
  | task h => exact .task (by rw [ho]; exact h)
  | await h hq =>
    refine .await (by rw [ho]; exact h) fun b' hb' => ?_
    rw [hb, List.mem_append, List.mem_singleton] at hb'
    rcases hb' with hb' | rfl
    · exact hq b' hb'
    · exact (hno _ _ (by rw [h.awaits]; exact get_single_self)).symm
  | child h => exact .child (by rw [ho]; exact h)
  | fan h hw => exact .fan (by rw [ho]; exact h) hw
  | map h hbusy => exact .map (by rw [ho]; exact h) hbusy

/-- An open await is the one thing in progress. -/
theorem Progress.one_await {k : String} {a : AwaitState} (h : Progress fl w)
    (ha : w.awaits[k]? = some a) : w.OneAwait fl k a := by
  cases h with
  | await h _ =>
    rw [h.awaits] at ha
    obtain ⟨rfl, rfl⟩ := get_of_single ha
    exact h
  | task h => exact (h.rest.no_await ha).elim
  | child h => exact (h.rest.no_await ha).elim
  | fan h _ => exact (h.rest.no_await ha).elim
  | map h _ => exact (h.rest.no_await ha).elim

theorem signal_runs (wf : WellFormed c.fl) (hu : Unfinished c.fl base s) (hr : s.work.Rested c.fl base)
    (p : Cmd.SignalData) : Holds c base (signal c p) s fun _ => Settled c.fl base := by
  unfold signal
  split
  · exact Runs.throw trivial
  · refine Runs.getSt ?_
    split
    · exact Runs.pure (.inr ⟨hu, hr⟩)
    · refine emits_bind hu rfl trivial ⟨_, rfl⟩ fun s₁ hu₁ hw₁ => Runs.getSt ?_
      have hopen : s₁.work.toOpen = s.work.toOpen := by rw [hw₁]; rfl
      have htimers : s₁.work.timers = s.work.timers := by rw [hw₁]; rfl
      have hawaits : s₁.awaits = s.awaits := show s₁.work.awaits = s.work.awaits by rw [hopen]
      have htimed : s₁.work.AwaitsTimed := fun k a hget => by
        rw [hopen] at hget
        rw [htimers]
        exact hr.awaits k a hget
      split
      · rename_i hnone
        refine Runs.pure (.inr ⟨hu₁, ?_, fun k t hget _ => ?_, htimed⟩)
        · refine hr.progress.buffer hopen (by rw [hw₁]; rfl) fun k a hget he => ?_
          rw [hawaits, List.find?_eq_none] at hnone
          exact hnone (k, a) (Std.ExtTreeMap.mem_toList_iff_getElem?_eq_some.2 hget) (by simp [he])
        · rw [hopen] at hget
          rw [htimers]
          exact hr.tasks k t hget id
      · rename_i node a hfind
        have hget : s.awaits[node]? = some a := by
          rw [hawaits] at hfind
          exact Std.ExtTreeMap.mem_toList_iff_getElem?_eq_some.1 (List.mem_of_find?_eq_some hfind)
        have hone := hr.progress.one_await hget
        obtain ⟨n, hn, hty, hsig⟩ := hone.type
        obtain rfl : n.id = node := Flow.node_id hn
        refine nodeOf_runs hn (consume_runs wf (enter_enters wf) hn hty hsig hu₁ (Nat.zero_le _) ?_ htimed)
        rw [hopen]
        exact hone

/-! ## Timers -/

/-- The timer `tm` is not the one `t` waits for. -/
structure Spared (tm : Timer) (t : Task) : Prop where
  timeout : ¬(tm.purpose = .timeout ∧ t.status = .scheduled ∧ tm.key = t.key ∧ tm.generation = t.generation ∧
    tm.attempt = t.attempt)
  retry : ¬(tm.purpose = .retry ∧ t.status = .retrying ∧ tm.key = t.key ∧ tm.generation = t.generation ∧
    tm.attempt = t.attempt + 1)

theorem Timed.fired {timers : SMap Timer} {p : TimerPurpose} {key : String} {g a : Nat}
    (h : Timed timers p key g a) (htm : timers[id]? = some tm)
    (hne : ¬(tm.purpose = p ∧ tm.key = key ∧ tm.generation = g ∧ tm.attempt = a)) : Timed (timers.erase id) p key g a := by
  obtain ⟨id', tm', hget, hrest⟩ := h
  refine ⟨id', tm', ?_, hrest⟩
  rw [get_erase, if_neg]
  · exact hget
  · rintro rfl
    cases htm.symm.trans hget
    exact hne hrest

theorem Dispatched.fired {timers : SMap Timer} {t : Task}
    (h : Dispatched fl base timers t) (htm : timers[id]? = some tm) (hs : Spared tm t) :
    Dispatched fl base (timers.erase id) t where
  own := h.own
  timeout hst nd hnd hto := (h.timeout hst nd hnd hto).fired htm fun hm => hs.timeout ⟨hm.1, hst, hm.2⟩
  retry hst := (h.retry hst).fired htm fun hm => hs.retry ⟨hm.1, hst, hm.2⟩

theorem awaitTimeout_runs (wf : WellFormed c.fl) (hu : Unfinished c.fl base s) (hp : Progress c.fl s.work)
    (hd : s.work.TasksDispatched c.fl base fun _ => False)
    (ha : ∀ (k : String) (a : AwaitState), s.work.awaits[k]? = some a → (a.timerID = tm.id ∧ k = tm.node) ∨
    ∃ tm', s.work.timers[a.timerID]? = some tm' ∧ tm'.purpose = .await ∧ tm'.node = k) :
    Holds c base (awaitTimeout c tm) s fun _ => Settled c.fl base := by
  unfold awaitTimeout
  refine Runs.getSt ?_
  split
  · rename_i hnone
    refine Runs.pure (.inr ⟨hu, hp, hd, fun k a hget => (ha k a hget).resolve_left ?_⟩)
    rintro ⟨-, rfl⟩
    cases hnone.symm.trans hget
  · rename_i a hget
    have hone := hp.one_await hget
    split
    · obtain ⟨n, hn, hty, -⟩ := hone.type
      have hid : n.id = tm.node := Flow.node_id hn
      refine nodeOf_runs hn (emits_bind hu rfl trivial ⟨_, rfl⟩ fun s₁ hu₁ hw₁ => ?_)
      split
      · exact fail_or hu₁.live _ _ _
      · rename_i hne
        refine enter_enters wf ⟨hu₁, ?_⟩ (Nat.zero_le _) (wf.onTimeout hn hne)
        rw [hw₁]
        refine ⟨hone.rest.tasks, hone.rest.fans, hone.rest.maps, ?_, hone.rest.children⟩
        show s.work.awaits.erase n.id = ∅
        rw [hid, hone.awaits, single_erase]
    · rename_i hne
      refine Runs.pure (.inr ⟨hu, hp, hd, fun k a' hget' => (ha k a' hget').resolve_left ?_⟩)
      rintro ⟨he, rfl⟩
      cases hget.symm.trans hget'
      exact hne he

theorem timer_runs (wf : WellFormed c.fl) (hu : Unfinished c.fl base s) (hr : s.work.Rested c.fl base)
    (p : Cmd.TimerData) : Holds c base (timer c p) s fun _ s' => Settled c.fl base s' ∧
    ∀ tm, s.timers[p.timerID]? = some tm → s'.work.TimerOver p.timerID := by
  unfold timer
  refine Runs.getSt ?_
  cases htm : s.timers[p.timerID]? with
  | none => exact Runs.pure ⟨.inr ⟨hu, hr⟩, fun tm h => by cases h⟩
  | some tm =>
    obtain ⟨hid, hname, hle⟩ := hu.sound.timer htm
    refine emits_bind hu rfl trivial ⟨_, rfl⟩ fun s₁ hu₁ hw₁ => ?_
    have hw : s₁.work = { s.work with timers := s.work.timers.erase p.timerID } := by rw [hw₁, ← hid]; rfl
    have hover : s₁.work.TimerOver p.timerID := by
      rw [hw]
      exact ⟨by rw [get_erase, if_pos rfl], tm.n, hle, hname⟩
    refine (Holds.keep (I := fun w => w.TimerOver p.timerID) TimerOver.step hu₁.live.begun hover ?_).mono
      fun _ _ ⟨h, ho⟩ => ⟨h, fun _ _ => ho⟩
    have hopen : s₁.work.toOpen = s.work.toOpen := by rw [hw]
    have htasks : s₁.tasks = s.tasks := show s₁.work.tasks = s.work.tasks by rw [hopen]
    have hp₁ : Progress c.fl s₁.work := hr.progress.of_open hopen (by rw [hw])
    -- every task but the one the timer was for keeps its wake-up
    have hspare : ∀ (k : String) (t : Task), s₁.work.tasks[k]? = some t → Spared tm t → Dispatched c.fl base s₁.work.timers t := by
      intro k t hget hsp
      rw [hopen] at hget
      rw [hw]
      exact (hr.tasks k t hget id).fired htm hsp
    have hkey : ∀ (k : String) (t : Task), s₁.work.tasks[k]? = some t → t.key = k := fun k t hget => by
      rw [hopen] at hget
      exact (hu.sound.task hget).key
    have hdkey : s₁.work.TasksDispatched c.fl base (· = tm.key) := fun k t hget hne =>
      hspare k t hget ⟨fun h => hne ((hkey k t hget) ▸ h.2.2.1.symm), fun h => hne ((hkey k t hget) ▸ h.2.2.1.symm)⟩
    have hawaits : ∀ (k : String) (a : AwaitState), s₁.work.awaits[k]? = some a →
        (a.timerID = tm.id ∧ k = tm.node ∧ tm.purpose = .await) ∨
          ∃ tm', s₁.work.timers[a.timerID]? = some tm' ∧ tm'.purpose = .await ∧ tm'.node = k := by
      intro k a hget
      rw [hopen] at hget
      obtain ⟨tm', hget', hpur, hnode⟩ := hr.awaits k a hget
      by_cases he : a.timerID = p.timerID
      · rw [he] at hget'
        cases htm.symm.trans hget'
        exact .inl ⟨he.trans hid.symm, hnode.symm, hpur⟩
      · refine .inr ⟨tm', ?_, hpur, hnode⟩
        rw [hw]
        show (s.work.timers.erase p.timerID)[a.timerID]? = some tm'
        rw [get_erase, if_neg (Ne.symm he)]
        exact hget'
    have htimed : tm.purpose ≠ .await → s₁.work.AwaitsTimed := fun hne k a hget =>
      (hawaits k a hget).resolve_left fun h => hne h.2.2
    refine Runs.getSt ?_
    cases hpur : tm.purpose with
    | retry =>
      simp only
      split
      · rename_i hnone
        refine Runs.pure (.inr ⟨hu₁, hp₁, fun k t hget _ => hdkey k t hget ?_, htimed (by simp [hpur])⟩)
        rintro rfl
        cases hnone.symm.trans hget
      · rename_i t ht
        have hk : t.key = tm.key := hkey _ _ ht
        split
        · rename_i hcond
          obtain ⟨hg, hst, hat⟩ := hcond
          obtain ⟨n, hn, -, -⟩ := (hu₁.sound.task ht).node
          have hown : base < t.generation := by
            rw [htasks] at ht
            exact (hr.tasks _ _ ht id).own (by simp [hst])
          refine nodeOf_runs hn ?_
          rw [← hat]
          exact retry_runs hu₁ hn hp₁ (hk.symm ▸ ht) hst hown (by rw [hk]; exact hdkey)
        · rename_i hcond
          refine Runs.pure (.inr ⟨hu₁, hp₁, fun k t' hget _ => ?_, htimed (by simp [hpur])⟩)
          refine hspare k t' hget ⟨fun h => by simp [hpur] at h, fun h => hcond ?_⟩
          have : k = tm.key := (hkey k t' hget).symm.trans h.2.2.1.symm
          subst this
          cases ht.symm.trans hget
          exact ⟨h.2.2.2.1.symm, h.2.1, h.2.2.2.2.symm⟩
    | timeout =>
      simp only
      split
      · rename_i hnone
        refine Runs.pure (.inr ⟨hu₁, hp₁, fun k t' hget _ => ?_, htimed (by simp [hpur])⟩)
        refine hspare k t' hget ⟨fun h => ?_, fun h => by simp [hpur] at h⟩
        have : k = tm.key := (hkey k t' hget).symm.trans h.2.2.1.symm
        subst this
        have hget : s₁.tasks[tm.key]? = some t' := hget
        simp [current, hget, h.2.1, h.2.2.2.1, h.2.2.2.2] at hnone
      · rename_i t hcur
        obtain ⟨ht, hst, -, -⟩ := current_some hcur
        have ht : s₁.tasks[tm.key]? = some t := ht
        have hk : t.key = tm.key := hkey _ _ ht
        have hown : base < t.generation := by
          rw [htasks] at ht
          exact (hr.tasks _ _ ht id).own (by simp [hst])
        exact (taskFailed_runs wf hu₁ hp₁ (hk.symm ▸ ht) hst hown (by rw [hk]; exact hdkey) _ _ _ _).mono
          fun _ _ h => h.1
    | await =>
      refine awaitTimeout_runs wf hu₁ hp₁ (fun k t hget _ => ?_) fun k a hget => ?_
      · exact hspare k t hget ⟨fun h => by simp [hpur] at h, fun h => by simp [hpur] at h⟩
      · exact (hawaits k a hget).imp_left fun h => ⟨h.1, h.2.1⟩

/-! ## Children -/

/-- The node of an open child, and the key it is filed under. -/
theorem Progress.child_node (wf : WellFormed fl) (h : Progress fl w) {k : String}
    (hc : w.children[k]? = some ch) : (∃ nd, fl.node ch.node = some nd) ∧ ch.nodeOf k = ch.node ∧ k ≠ "" := by
  have plain : ∀ {nd}, fl.node k = some nd → ch.node = k → (∃ nd, fl.node ch.node = some nd) ∧ ch.nodeOf k = ch.node ∧ k ≠ "" := by
    intro nd hnd hk
    refine ⟨⟨nd, hk ▸ hnd⟩, ?_, wf.id_ne hnd⟩
    unfold ChildState.nodeOf
    rw [if_neg]
    rw [hk]
    exact wf.id_ne hnd
  cases h with
  | task h => exact (h.rest.no_child hc).elim
  | await h _ => exact (h.rest.no_child hc).elim
  | child h =>
    rw [h.children] at hc
    obtain ⟨rfl, rfl⟩ := get_of_single hc
    obtain ⟨nd, hnd, -⟩ := h.type
    exact plain hnd h.node
  | fan h _ =>
    obtain ⟨-, hnode, -, -, nd, hnd, -⟩ := h.child hc
    exact plain hnd hnode
  | map h _ =>
    obtain ⟨-, hnode, -, hkey, nd, hnd, -⟩ := h.child hc
    refine ⟨⟨nd, hnode ▸ hnd⟩, ?_, hkey ▸ itemKey_ne_empty _ _⟩
    unfold ChildState.nodeOf
    rw [if_neg]
    rw [hnode]
    exact wf.id_ne hnd

theorem applyChildDone_ok {d : Event.ChildDone}
    (hi : ∀ ch m, s.children[d.instanceKey]? = some ch → s.maps[ch.owner]? = some m → ch.index < m.outputs.length) :
    ∃ s', s.applyChildDone d = .ok s' := by
  unfold State.applyChildDone
  simp only
  split
  · exact ⟨_, rfl⟩
  · rename_i ch hch
    split
    · rename_i m hm
      split
      · refine recordItem_ok (hi ch m hch ?_)
        split at hm
        · exact hm
        · cases hm
      · exact ⟨_, rfl⟩
    · exact ⟨_, rfl⟩

/-- The child whose end a command reports. -/
def childOf (s : State) (id : String) : Option (String × ChildState) :=
  s.children.toList.find? fun kc => kc.2.childID == id

theorem childOf_some {key : String} (h : childOf s id = some (key, ch)) :
    s.children[key]? = some ch ∧ ch.childID = id :=
  ⟨Std.ExtTreeMap.mem_toList_iff_getElem?_eq_some.1 (List.mem_of_find?_eq_some h), by simpa using List.find?_some h⟩

theorem childDone_over {d : Event.ChildDone} (h : s.work.Sound c.fl)
    (hc : s.children[d.instanceKey]? = some ch) (hid : ch.childID = d.childID) :
    (s.work.step (.childDone d)).ChildOver d.childID := by
  obtain ⟨m, hm, hnum⟩ := h.child hc
  refine ⟨fun hget he => ?_, m, hm.trans (Work.step_n rfl _), hid ▸ hnum⟩
  simp only [Work.step, Work.finishChild_children] at hget
  obtain ⟨hne, hget⟩ := get_of_erase hget
  exact hne (h.distinct hc hget (hid.trans he.symm))

theorem childDone_runs (wf : WellFormed c.fl) (hu : Unfinished c.fl base s) (hr : s.work.Rested c.fl base)
    (p : Cmd.ChildDoneData) : Holds c base (childDone c p) s fun _ s' => Settled c.fl base s' ∧
    ∀ kc, childOf s p.childID = some kc → s'.work.ChildOver p.childID := by
  unfold childDone
  refine Runs.getSt ?_
  rw [show (s.children.toList.find? fun kc => kc.2.childID == p.childID) = childOf s p.childID from rfl]
  cases hfind : childOf s p.childID with
  | none => exact Runs.pure ⟨.inr ⟨hu, hr⟩, fun kc h => by cases h⟩
  | some kc =>
    obtain ⟨key, ch⟩ := kc
    obtain ⟨hc, hid⟩ := childOf_some hfind
    obtain ⟨⟨n, hn⟩, hnode, hne⟩ := hr.progress.child_node wf hc
    have hnid : n.id = ch.node := Flow.node_id hn
    simp only [hnode]
    obtain ⟨d, hd⟩ : ∃ d : Event.ChildDone, d = { node := ch.node, key := if key = ch.node then "" else key
                                                  childID := p.childID, status := p.status, output := p.output
                                                  error := p.error, counters := p.counters } := ⟨_, rfl⟩
    have hkey : d.instanceKey = key := by
      rw [hd]
      unfold Event.ChildDone.instanceKey
      by_cases he : key = ch.node
      · simp [he]
      · simp [he, hne]
    rw [← hd]
    have hdc : s.children[d.instanceKey]? = some ch := hkey.symm ▸ hc
    have hdid : ch.childID = d.childID := by rw [hd]; exact hid
    refine emits_bind hu rfl ⟨ch, hdc, hdid⟩ (applyChildDone_ok fun ch' m hc' hm => ?_) fun s₁ hu₁ hw₁ => ?_
    · exact hr.progress.child_index hc' hm
    have hover : s₁.work.ChildOver p.childID := by
      have := childDone_over hu.sound hdc hdid
      rw [← hw₁, hd] at this
      exact this
    refine (Holds.keep (I := fun w => w.ChildOver p.childID) ChildOver.step hu₁.live.begun hover ?_).mono
      fun _ _ h => ⟨h.1, fun _ _ => h.2⟩
    refine Runs.getSt ?_
    split
    · exact fail_or hu₁.live _ _ _
    · refine nodeOf_runs hn ?_
      have hfin : s₁.work = s.work.finishChild d := hw₁
      have hfreed : Freed c.fl s₁.work ch.owner ch.node (if p.status == "completed" then 0 else 1) := by
        rw [hfin]
        have := hr.progress.finish_child hdc (by rw [hd])
        rw [show d.status = p.status by rw [hd]] at this
        exact this
      have hd₁ : s₁.work.TasksDispatched c.fl base fun _ => False := by
        intro k t hget _
        rw [hfin, Work.finishChild_tasks] at hget
        rw [hfin, Work.finishChild_timers]
        exact hr.tasks k t hget id
      refine hfreed.react eq_comm (fun f hf => evalJoin_runs wf hu₁ hf hd₁) (fun r hm hno => ?_) fun hidle hty => ?_
      · rw [← hno, ← hnid] at hm
        by_cases hok : (p.status == "completed") = true
        · rw [if_pos hok] at hm ⊢
          obtain ⟨nd, hnd, hty⟩ := hm.type
          rw [hnid, hn] at hnd
          cases hnd
          exact mapProgress_runs wf (enter_enters wf) (hnid.symm ▸ hn) hty hu₁ (Nat.zero_le _) hm hd₁
        · rw [if_neg hok]
          split
          · rename_i hof
            exact abortMap_runs wf (hnid.symm ▸ hn) hof hu₁ hm ch.index
          · exact fail_or hu₁.live _ _ _
      · obtain ⟨nd, hnd, hty⟩ := hty
        rw [hn] at hnd
        cases hnd
        split
        · exact advance_next wf (enter_enters wf) hn hty ⟨hu₁, hidle⟩ (Nat.zero_le _)
        · split
          · rename_i hof
            exact enter_enters wf ⟨hu₁, hidle⟩ (Nat.zero_le _) (wf.onFailure hn hof)
          · exact fail_or hu₁.live _ _ _

/-! ## Updates -/

/-- An accepted edit of the channels changes nothing that is in progress. -/
theorem edit_runs {writes : SMap Json} {u : Unit} (id : String) (hu : Unfinished c.fl base s)
    (hw : checkWrites c.x c.fl s writes.toList = .ok u) :
    Holds c base (emit c (.update { id, writes })) s fun _ s' => Unfinished c.fl base s' ∧ s'.work = s.work := by
  obtain ⟨channels, hch⟩ := reduceAll_of_check hw
  refine emits hu rfl trivial ?_
  simp only [State.applyData, Ctx.event, State.applyUpdate, hch]
  exact ⟨_, rfl⟩

theorem update_runs (hu : Unfinished c.fl base s) (hr : s.work.Rested c.fl base) (writes : SMap Json) :
    Holds c base (update c writes) s fun _ => Settled c.fl base := by
  unfold update
  refine Runs.getSt ?_
  split
  · exact Runs.throw trivial
  · split
    · exact Runs.pure (.inr ⟨hu, hr⟩)
    · split
      · exact Runs.throw trivial
      · rename_i u hw
        exact (edit_runs c.cmdID hu hw).mono fun _ s' ⟨hu', hw'⟩ => .inr ⟨hu', by rw [hw']; exact hr⟩

end

end Packtrail
