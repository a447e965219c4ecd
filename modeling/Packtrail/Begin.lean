import Packtrail.React

/-
# Beginning, carrying on and giving up

`Start` and `Fork` begin an execution that does not exist yet: a start with nothing open, a fork with
what its source had open and every attempt, await and child of it dispatched again under new numbers
(`rekick`). `Continue` replaces the log without touching what is in progress, `Abort` ends an execution
whose decision is too large to store.
-/

namespace Packtrail

open Emitter

/-- Nothing was written for the execution yet. -/
structure State.Absent (s : State) : Prop where
  events : s.events = 0
  status : s.status = .unset
  work : s.work = .none

theorem State.absent_new (execID : String) : (State.new execID).Absent := ⟨rfl, rfl, rfl⟩

theorem State.Absent.not_exists {s : State} (h : s.Absent) : s.exists = false := by simp [State.exists, h.events]

theorem Work.none_idle : Work.none.Idle := by
  refine ⟨rfl, rfl, ?_, rfl, rfl⟩
  apply Std.ExtTreeMap.ext_getElem?
  intro k
  exact (State.work_maps_get (State.new "") k).trans (by rw [State.new]; simp)

/-- With nothing open and no timers there is nothing to number. -/
theorem Work.Sound.of_idle {fl : Flow} {w : Work} (h : w.Idle) (ht : w.timers = ∅) : w.Sound fl where
  task hget := (h.no_task hget).elim
  timer hget := by rw [ht, get_empty] at hget; cases hget
  child hget := (h.no_child hget).elim
  distinct hget := (h.no_child hget).elim

section
variable {c : Ctx} {base : Nat} {s : State}

/-- The first event of an execution. -/
theorem begins_then {p : Payload} {s₁ : State} {Q : Unit → State → Prop} (ha : s.Absent) (hp : p.begins = true)
    (ho : Offer c.fl base s p) (ok : s.applyData c.x.quote c.fl (c.event p s) = .ok s₁)
    (hQ : ∀ s', s' = s₁.finish (c.event p s) → s'.work = s.work.step p → Q () s') : Holds c base (emit c p) s Q := by
  have hidx : (c.event p s).index = s.events + 1 := by
    cases p <;> first | cases hp; done | simp [Ctx.event, Payload.isForked, ha.events]
  have hexp : s.expectedIndex (c.event p s) = s.events + 1 := by
    cases p <;> first | cases hp; done | simp [State.expectedIndex, Ctx.event, ha.events]
  have happ : c.apply s (c.event p s) = .ok (s₁.finish (c.event p s)) :=
    State.apply_ok.2 ⟨.inr (hidx.trans hexp.symm), s₁, ok, rfl⟩
  refine Runs.emit ⟨hidx, ?_, ?_, ho⟩ happ (hQ _ rfl (State.apply_work happ))
  · rw [ha.status]; rfl
  · show p.begins = true ↔ _
    simp [hp, ha.events]

/-! ## Starting -/

/-- An execution stays one of its flow. -/
theorem Promise.flow {x : Ext} {fl : Flow} {ev : Event} {s' : State} (h : Promise fl base s ev) (hb : 0 < s.events)
    (ha : s.apply x.quote fl ev = .ok s') : s'.flow = s.flow := by
  obtain ⟨-, s₁, hd, rfl⟩ := State.apply_ok.1 ha
  show s₁.flow = s.flow
  have ho := h.offer
  have hbeg : ¬ev.data.begins = true := fun hbeg => absurd (h.begins.1 hbeg) hb.ne'
  cases hp : ev.data with
  | started d => rw [hp] at hbeg; exact absurd rfl hbeg
  | forked d => rw [hp] at hbeg; exact absurd rfl hbeg
  | continued d =>
    rw [State.applyData, hp] at hd
    rw [hp] at ho
    obtain ⟨seg, q, hst⟩ := ho
    cases hd
    show (unmarshal d.state).flow = s.flow
    rw [hst]
    rfl
  | completed d => rw [State.applyData, hp] at hd; cases hd; rfl
  | failed d => rw [State.applyData, hp] at hd; cases hd; rfl
  | cancelled d => rw [State.applyData, hp] at hd; cases hd; rfl
  | _ => exact (State.applyData_keeps (by rw [hp]; rfl) hd).flow

theorem Holds.keep_flow {α : Type} {m : DecM α} {Q : α → State → Prop} (hb : 0 < s.events) (h : Holds c base m s Q) :
    Holds c base m s fun a s' => Q a s' ∧ s'.flow = s.flow := by
  have step : ∀ t e t', (0 < t.events ∧ t.flow = s.flow) → Promise c.fl base t e → c.apply t e = .ok t' →
      0 < t'.events ∧ t'.flow = s.flow := by
    rintro t e t' ⟨hev, hf⟩ hp happ
    refine ⟨?_, (hp.flow hev happ).trans hf⟩
    obtain ⟨-, t₁, -, rfl⟩ := State.apply_ok.1 happ
    exact Nat.succ_pos _
  exact (Runs.keep step ⟨hb, rfl⟩ h).mono fun a s' ⟨hq, _, hf⟩ => ⟨hq, hf⟩

theorem started_runs {d : Event.Started} (ha : s.Absent) :
    Holds c 0 (emit c (.started d)) s fun _ s' => Between c.fl 0 s' ∧ s'.flow = d.flow := by
  refine begins_then ha rfl ⟨rfl, ha.work⟩ rfl fun s' he hw => ⟨?_, by rw [he]; rfl⟩
  have hwork : s'.work = .none := hw.trans ha.work
  refine ⟨⟨?_, ?_, Nat.zero_le _⟩, ?_⟩
  · rw [he]
    exact State.finish_live _ (.inl rfl)
  · rw [hwork]; exact Work.Sound.of_idle Work.none_idle rfl
  · rw [hwork]; exact Work.none_idle

theorem start_runs (wf : WellFormed c.fl) (ha : s.Absent) (p : Cmd.StartData) :
    Holds c 0 (start c p) s fun _ s' => Settled c.fl 0 s' ∧ s'.flow = c.fl.name := by
  unfold start
  refine Runs.getSt ?_
  simp only [ha.not_exists, Bool.false_eq_true, if_false]
  generalize (if isNull p.input = true then Json.obj [] else p.input.encoded) = input
  split
  · split
    · exact Runs.throw trivial
    · refine (started_runs ha).bind fun _ s' ⟨hb, hf⟩ => ?_
      exact ((enter_enters wf hb (Nat.zero_le _) wf.start).keep_flow hb.1.live.begun).mono fun _ t ⟨hs, ht⟩ => ⟨hs, ht.trans hf⟩
  · exact Runs.throw trivial

/-- A second start finds the execution. -/
theorem start_again {Q : Unit → State → Prop} (he : s.exists = true) (hQ : Q () s) (p : Cmd.StartData) :
    Holds c base (start c p) s Q := by
  unfold start
  refine Runs.getSt ?_
  rw [if_pos he]
  split
  · exact Runs.pure hQ
  · rename_i e hj
    refine Runs.throw ?_
    unfold checkJoin at hj
    split at hj
    · cases hj
    · cases hj
      trivial

/-! ## Forking -/

/-- Every task but an interrupted one is scheduled again. -/
theorem rekickTasks_runs : ∀ {keys : List String} {s : State}, Unfinished c.fl base s → Progress c.fl s.work → keys.Nodup →
    (∀ k ∈ keys, ∃ t, s.work.tasks[k]? = some t ∧ t.generation ≤ base) →
    s.work.TasksDispatched c.fl base (· ∈ keys) →
    Holds c base (rekickTasks c keys) s fun _ s' => Unfinished c.fl base s' ∧ Progress c.fl s'.work ∧
      s'.work.TasksDispatched c.fl base (fun _ => False) ∧ s'.work.children = s.work.children
  | [], s, hu, hp, _, _, hd => Runs.pure ⟨hu, hp, fun k t hget _ => hd k t hget (by simp), rfl⟩
  | key :: keys, s, hu, hp, hnd, hkeys, hd => by
    rw [List.nodup_cons] at hnd
    obtain ⟨t, ht, hgen⟩ := hkeys key List.mem_cons_self
    have hkey : t.key = key := (hu.sound.task ht).key
    subst hkey
    obtain ⟨n, hn, -, -⟩ := (hu.sound.task ht).node
    have hid : n.id = t.node := Flow.node_id hn
    unfold rekickTasks
    refine Runs.getSt ?_
    rw [show s.tasks[t.key]? = some t from ht]
    simp only
    split
    · -- an interrupted task keeps waiting for its resume
      rename_i hint
      refine rekickTasks_runs hu hp hnd.2 (fun k hk => hkeys k (List.mem_cons_of_mem _ hk)) fun k t' hget hk => ?_
      by_cases he : k = t.key
      · subst he
        cases ht.symm.trans hget
        exact ⟨fun hne => absurd hint hne, fun hs => by simp [hint] at hs, fun hs => by simp [hint] at hs⟩
      · exact hd k t' hget (by simp [he, hk])
    · refine nodeOf_runs hn ?_
      refine (schedule_fresh hu (hid.symm ▸ hn) fun t' ht' _ => ?_).bind fun _ s' ⟨hu', hput⟩ => ?_
      · cases ht.symm.trans ht'
        exact hgen
      · have hchildren : s'.work.children = s.work.children := by rw [hput.opened]
        rw [← hchildren]
        refine rekickTasks_runs hu' (hp.reput hput ht rfl hid rfl) hnd.2 (fun k hk => ?_) ?_
        · obtain ⟨t', ht', hg'⟩ := hkeys k (List.mem_cons_of_mem _ hk)
          refine ⟨t', ?_, hg'⟩
          rw [hput.opened]
          show (s.work.tasks.insert t.key _)[k]? = some t'
          rw [get_insert, if_neg]
          · exact ht'
          · rintro rfl
            exact hnd.1 hk
        · refine hd.put hput fun k hne hk => ?_
          rw [List.mem_cons, not_or]
          exact ⟨hne, hk⟩

/-- The tasks a fork inherits are dispatched again. -/
theorem rekickTasks_all (hu : Unfinished c.fl base s) (hp : Progress c.fl s.work)
    (hgen : ∀ (k : String) (t : Task), s.work.tasks[k]? = some t → t.generation ≤ base) :
    Holds c base (rekickTasks c s.tasks.keys) s fun _ s' => Unfinished c.fl base s' ∧ Progress c.fl s'.work ∧
      s'.work.TasksDispatched c.fl base (fun _ => False) ∧ s'.work.children = s.work.children := by
  refine rekickTasks_runs hu hp Std.ExtTreeMap.nodup_keys (fun k hk => ?_) fun k t hget hk =>
    absurd (Std.ExtTreeMap.mem_keys.2 (mem_of_get hget)) hk
  obtain ⟨t, ht⟩ := get_of_mem (Std.ExtTreeMap.mem_keys.1 hk)
  exact ⟨t, ht, hgen k t ht⟩

theorem Progress.awaits_cases {fl : Flow} {w : Work} (h : Progress fl w) :
    w.awaits = ∅ ∨ ∃ k a, w.OneAwait fl k a ∧ ∀ b ∈ w.buffered, b.name ≠ a.signal := by
  cases h with
  | task h => exact .inl h.rest.awaits
  | await h hquiet => exact .inr ⟨_, _, h, hquiet⟩
  | child h => exact .inl h.rest.awaits
  | fan h _ => exact .inl h.rest.awaits
  | map h _ => exact .inl h.rest.awaits

/-- Every await gets a new timer; a signal it could consume would have been consumed before the fork. -/
theorem rekickAwaits_runs (hu : Unfinished c.fl base s) (hp : Progress c.fl s.work)
    (hd : s.work.TasksDispatched c.fl base fun _ => False) :
    Holds c base (rekickAwaits c s.awaits.keys) s fun _ s' => Unfinished c.fl base s' ∧ Progress c.fl s'.work ∧
      s'.work.TasksDispatched c.fl base (fun _ => False) ∧ s'.work.AwaitsTimed ∧ s'.work.children = s.work.children := by
  rcases hp.awaits_cases with he | ⟨k, a, h, hquiet⟩
  · rw [show s.awaits = ∅ from he]
    refine Runs.pure ⟨hu, hp, hd, fun k a hget => ?_, rfl⟩
    rw [he, get_empty] at hget
    cases hget
  · obtain ⟨n, hn, hty, hsig⟩ := h.type
    obtain rfl : n.id = k := Flow.node_id hn
    rw [show s.awaits = single n.id a from h.awaits, keys_single]
    unfold rekickAwaits
    refine nodeOf_runs hn ?_
    have hawait : Holds c base (await c (enter c) n) s fun _ s' => Unfinished c.fl base s' ∧ Progress c.fl s'.work ∧
        s'.work.TasksDispatched c.fl base (fun _ => False) ∧ s'.work.AwaitsTimed ∧ s'.work.children = s.work.children := by
      refine await_then hn hty hu h.rest (fun k hk => ?_) fun s' a' hu' ha' hs' hw' hbuf _ => ?_
      · rw [h.awaits, mem_single] at hk
        exact hk
      · have hquiet' : ∀ b ∈ s'.work.buffered, b.name ≠ a'.signal := by
          intro b hb
          rw [hbuf] at hb
          rw [← hs', hsig]
          exact hquiet b hb
        unfold consume
        refine Runs.getSt ?_
        have hnone : s'.buffered.find? (fun b => b.name == n.signal) = none := by
          rw [List.find?_eq_none]
          intro b hb he
          exact hquiet' b hb (by simpa [hs'] using he)
        rw [hnone]
        exact Runs.pure ⟨hu', .await ha' hquiet', fun k t hget _ => (ha'.rest.no_task hget).elim, hw',
          ha'.rest.children.trans h.rest.children.symm⟩
    exact hawait.bind fun _ s' h' => Runs.pure h'

theorem rekickChildren_ended : ∀ {keys : List String} {s : State}, s.Ended →
    Holds c base (rekickChildren c keys) s fun _ s' => Settled c.fl base s' ∧ s'.work.OwnChildren base
  | [], _, he => Runs.pure ⟨.inl he, fun hget => (he.idle.no_child hget).elim⟩
  | key :: keys, s, he => by
    unfold rekickChildren
    refine Runs.getSt ?_
    rw [if_pos he.status]
    exact Runs.pure ⟨.inl he, fun hget => (he.idle.no_child hget).elim⟩

/-- Every child is started again under a new id. -/
theorem rekickChildren_runs (wf : WellFormed c.fl) : ∀ {keys : List String} {s : State}, Unfinished c.fl base s →
    s.work.Rested c.fl base → keys.Nodup → (∀ k ∈ keys, k ∈ s.work.children) →
    (∀ (k : String) (ch : ChildState), s.work.children[k]? = some ch →
      if k ∈ keys then ∃ m ≤ base, Numbered ch.childID m else ∃ m, base < m ∧ Numbered ch.childID m) →
    Holds c base (rekickChildren c keys) s fun _ s' => Settled c.fl base s' ∧ s'.work.OwnChildren base
  | [], s, hu, hr, _, _, hown => Runs.pure ⟨.inr ⟨hu, hr⟩, fun hget => by simpa using hown _ _ hget⟩
  | key :: keys, s, hu, hr, hnd, hkeys, hown => by
    rw [List.nodup_cons] at hnd
    obtain ⟨ch, hc⟩ := get_of_mem (hkeys key List.mem_cons_self)
    obtain ⟨⟨n, hn⟩, hnode, hne⟩ := hr.progress.child_node wf hc
    have hid : n.id = ch.node := Flow.node_id hn
    unfold rekickChildren
    refine Runs.getSt ?_
    rw [if_neg (by simp [hu.live.unended]), show s.children[key]? = some ch from hc]
    simp only [hnode]
    refine nodeOf_runs hn ?_
    have hnew : ∀ ch, s.work.children[key]? = some ch → ∃ m ≤ base, Numbered ch.childID m := by
      intro ch hget
      have := hown key ch hget
      rwa [if_pos List.mem_cons_self] at this
    refine (startChild_runs hu (.inr hne) hnew).bind fun _ s' h => ?_
    rcases h with he | ⟨hu', ch', hnode', howner, hidx, hnum, hh⟩
    · exact rekickChildren_ended he
    · have hchildren : s'.work.children = s.work.children.insert key ch' := by rw [hh.opened]
      refine rekickChildren_runs wf hu' ⟨hr.progress.rehire hh hc howner (hnode'.trans hid) hidx, hr.tasks.hire hh, ?_⟩
        hnd.2 ?_ fun k ch'' hget => ?_
      · intro k a hget
        rw [hh.opened] at hget
        rw [hh.timers]
        exact hr.awaits k a hget
      · intro k hk
        rw [hchildren]
        exact Std.ExtTreeMap.mem_insert.2 (.inr (hkeys k (List.mem_cons_of_mem _ hk)))
      · rw [hchildren] at hget
        rcases get_of_insert hget with ⟨rfl, rfl⟩ | ⟨hk, hget⟩
        · rwa [if_neg hnd.1]
        · have := hown k ch'' hget
          simpa only [List.mem_cons, Ne.symm hk, false_or] using this

theorem rekick_runs (wf : WellFormed c.fl) (hu : Unfinished c.fl base s) (hp : Progress c.fl s.work)
    (hgen : ∀ (k : String) (t : Task), s.work.tasks[k]? = some t → t.generation ≤ base)
    (hold : ∀ (k : String) (ch : ChildState), s.work.children[k]? = some ch → ∃ m ≤ base, Numbered ch.childID m) :
    Holds c base (rekick c) s fun _ s' => Settled c.fl base s' ∧ s'.work.OwnChildren base := by
  unfold rekick
  refine Runs.getSt ?_
  refine (rekickTasks_all hu hp hgen).bind fun _ s₁ ⟨hu₁, hp₁, hd₁, hc₁⟩ => ?_
  refine Runs.getSt ((rekickAwaits_runs hu₁ hp₁ hd₁).bind fun _ s₂ ⟨hu₂, hp₂, hd₂, ha₂, hc₂⟩ => ?_)
  refine Runs.getSt (Runs.setAux (rekickChildren_runs wf hu₂ ⟨hp₂, hd₂, ha₂⟩ Std.ExtTreeMap.nodup_keys ?_ fun k ch hget => ?_))
  · exact fun k hk => Std.ExtTreeMap.mem_keys.1 hk
  · have hmem : k ∈ s₂.children.keys := Std.ExtTreeMap.mem_keys.2 (mem_of_get hget)
    rw [if_pos hmem]
    rw [hc₂, hc₁] at hget
    exact hold k ch hget

/-- The forked state: as its source, without its timers. -/
theorem forked_runs {src : State} {source : String} {seq b : Nat} (ha : s.Absent) (hsrc : Settled c.fl b src) :
    Holds c src.n (emit c (.forked { execID := s.execID, source, seq, state := src.marshal })) s fun _ s' =>
      s'.Ended ∨ Unfinished c.fl src.n s' ∧ Progress c.fl s'.work ∧
        (∀ (k : String) (t : Task), s'.work.tasks[k]? = some t → t.generation ≤ src.n) ∧
        ∀ (k : String) (ch : ChildState), s'.work.children[k]? = some ch → ∃ m ≤ src.n, Numbered ch.childID m := by
  have hstep : s.work.step (.forked { execID := s.execID, source, seq, state := src.marshal }) =
      { src.work with timers := ∅ } := by
    show ({ src.encoded.work with timers := ∅ } : Work) = _
    rw [State.work_encoded]
  have hsound : ({ src.work with timers := ∅ } : Work).Sound c.fl := by
    rcases hsrc with he | ⟨hu, -⟩
    · exact Work.Sound.of_idle he.idle rfl
    · exact hu.sound.of_le le_rfl id (fun hget => by simp at hget) id
  have hcarried : src.status.terminal = true ∧ ({ src.work with timers := ∅ } : Work).Idle ∨
      src.status = .running ∨ src.status = .waiting := by
    rcases hsrc with he | ⟨hu, -⟩
    · exact .inl ⟨he.status, he.idle⟩
    · exact .inr hu.live.status
  refine begins_then ha rfl ⟨rfl, by rw [hstep]; exact hsound, by rw [hstep]; exact hcarried⟩ rfl fun s' he hw => ?_
  rw [hstep] at hw
  rcases hsrc with hend | ⟨hu, hr⟩
  · refine .inl ⟨?_, ?_, ?_⟩
    · rw [he]; exact Nat.succ_pos _
    · rw [he]
      show (if _ then src.status else _ : Status).terminal = true
      rw [if_pos]
      · exact hend.status
      · show (src.status.terminal || _) = true
        rw [hend.status]
        rfl
    · rw [hw]; exact hend.idle
  · refine .inr ⟨⟨?_, by rw [hw]; exact hsound, ?_⟩, ?_, fun k t hget => ?_, fun k ch hget => ?_⟩
    · rw [he]
      exact State.finish_live _ hu.live.status
    · show src.n ≤ s'.work.n
      rw [hw]
      exact le_rfl
    · exact hr.progress.of_open (by rw [hw]) (by rw [hw])
    · rw [hw] at hget
      exact (hu.sound.task hget).le
    · rw [hw] at hget
      exact hu.sound.child hget

theorem forkProg_runs (wf : WellFormed c.fl) {src : State} {b : Nat} (ha : s.Absent) (hsrc : Settled c.fl b src)
    (source : String) (seq : Nat) (writes : SMap Json) :
    Holds c src.n (forkProg c src source seq writes) s fun _ s' => Settled c.fl src.n s' ∧ s'.work.OwnChildren src.n := by
  unfold forkProg
  refine Runs.getSt ((forked_runs ha hsrc).bind fun _ s₁ h₁ => Runs.getSt ?_)
  rcases h₁ with he | ⟨hu, hp, hgen, hold⟩
  · rw [if_pos he.status, if_pos he.status]
    split
    · exact Runs.pure ⟨.inl he, fun hget => (he.idle.no_child hget).elim⟩
    · exact Runs.throw trivial
  · have hst : s₁.status.terminal = false := hu.live.unended
    simp only [hst, Bool.false_eq_true, if_false]
    split
    · exact rekick_runs wf hu hp hgen hold
    · split
      · exact Runs.throw trivial
      · rename_i u hw
        refine (edit_runs c.cmdID hu hw).bind fun _ s₂ ⟨hu₂, hw₂⟩ => ?_
        exact rekick_runs wf hu₂ (by rw [hw₂]; exact hp) (by rw [hw₂]; exact hgen) (by rw [hw₂]; exact hold)

/-! ## Continuing and aborting -/

/-- A continuation changes nothing that is in progress. -/
theorem continued_runs {seg : Segment} (hu : Unfinished c.fl base s) (hr : s.work.Rested c.fl base) :
    Holds c base (emit c (.continued
      { state := ({ unmarshal s.marshal with segments := (unmarshal s.marshal).segments ++ [seg] } : State).marshal
        segment := seg })) s fun _ => Settled c.fl base := by
  obtain ⟨d, hd⟩ : ∃ d : Event.Continued, d =
      { state := ({ unmarshal s.marshal with segments := (unmarshal s.marshal).segments ++ [seg] } : State).marshal
        segment := seg } := ⟨_, rfl⟩
  have ho : Offer c.fl base s (.continued d) := ⟨seg, s.lastSeq, by rw [hd]; rfl⟩
  obtain ⟨s₁, hs₁⟩ : ∃ s₁ : State, s₁ = { unmarshal d.state with base := (c.event (.continued d) s).index } := ⟨_, rfl⟩
  have happ : c.apply s (c.event (.continued d) s) = .ok (s₁.finish (c.event (.continued d) s)) := by
    refine State.apply_ok.2 ⟨.inr ?_, s₁, congrArg Except.ok hs₁.symm, rfl⟩
    rw [hd]
    rfl
  have hw : (s₁.finish (c.event (.continued d) s)).work = s.work := (State.apply_work happ).trans ho.continued_work
  rw [← hd]
  refine Runs.emit ⟨rfl, hu.live.unended, ?_, ho⟩ happ (.inr ⟨⟨State.finish_live _ ?_, ?_, ?_⟩, ?_⟩)
  · have : s.events ≠ 0 := hu.live.begun.ne'
    simp [Ctx.event, Payload.begins, this]
  · rw [hs₁, hd]; exact hu.live.status
  · rw [hw]; exact hu.sound
  · show base ≤ (s₁.finish (c.event (.continued d) s)).work.n
    rw [hw]
    exact hu.base_le
  · rw [hw]; exact hr

/-- Aborting an existing execution ends it, unless it has ended. -/
theorem abort_exists (h : Settled c.fl base s) (first : Option Event) (reason msg : String) :
    Holds c base (abortProg c first reason msg) s fun _ => Settled c.fl base := by
  have hex : s.exists = true := by
    rcases h with he | ⟨hu, -⟩
    · simpa [State.exists] using he.begun
    · exact hu.live.exists
  unfold abortProg
  refine Runs.getSt ?_
  rw [if_pos hex]
  rcases h with he | ⟨hu, hr⟩
  · rw [if_pos he.status]
    exact Runs.pure (.inl he)
  · rw [if_neg (by simp [hu.live.unended])]
    exact fail_or hu.live _ _ _

/-- A first event on its own. -/
theorem first_runs {p : Payload} (ha : s.Absent) (hp : p.begins = true) (ho : Offer c.fl base s p) :
    Holds c base (emit c p) s fun _ s' => s'.Ended ∨ s'.Live := by
  cases p with
  | started d =>
    refine begins_then ha rfl ho rfl fun s' he _ => .inr ?_
    rw [he]
    exact State.finish_live _ (.inl rfl)
  | forked d =>
    refine begins_then ha rfl ho rfl fun s' he hw => ?_
    rcases ho.2.2 with ⟨hst, hidle⟩ | hst
    · refine .inl ⟨by rw [he]; exact Nat.succ_pos _, ?_, by rw [hw]; exact hidle⟩
      rw [he]
      show (if ((unmarshal d.state).status.terminal || _) = true then (unmarshal d.state).status else _ : Status).terminal = true
      rw [hst, Bool.true_or, if_pos rfl]
      exact hst
    · rw [he]
      exact .inr (State.finish_live _ hst)
  | _ => cases hp

/-- Aborting the beginning of an execution: its first event stands, then it fails. -/
theorem abort_absent {first : Event} (ha : s.Absent) (hb : first.data.begins = true) (ho : Offer c.fl base s first.data)
    (reason msg : String) :
    Holds c base (abortProg c (some first) reason msg) s fun _ => Settled c.fl base := by
  unfold abortProg
  refine Runs.getSt ?_
  simp only [ha.not_exists, Bool.false_eq_true, if_false]
  refine (first_runs ha hb ho).bind fun _ s₁ h₁ => Runs.getSt ?_
  rcases h₁ with he | hl
  · rw [if_pos he.status]
    exact Runs.pure (.inl he)
  · rw [if_neg (by simp [hl.unended])]
    exact fail_or hl _ _ _

end

end Packtrail
