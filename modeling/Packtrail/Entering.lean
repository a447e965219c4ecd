import Packtrail.Limits

/-
# The node entries of one decision

`enter`, `choose`, `await`, `consume` and `mapProgress` call each other along the edges of the flow
(`decide.go:357-438`, `793-874`, `971-1004`, `1051-1115`), and a flow may have cycles in which nothing waits. What ends the
recursion is the check of `max_steps` in `enter`: every entry it makes is counted, and it makes none beyond the limit.
`Visits` follows the programs and keeps the list of the entries they make; only `closeJoin` and `startBranches` enter nodes
without asking.

**`decision_ends`**: a decision never runs out of the recursion budget the model gives it, a larger budget changes nothing
(`enterFuel_enough`), and its entries are those of `CountedSteps`: at most one join, then routed entries within the limit, then
branches of one fan-out.
-/

namespace Packtrail

open Emitter Replay

/-- The node an event enters. -/
def Event.entry (ev : Event) : Option String :=
  match ev.data with
  | .entered d => some d.node
  | _ => none

/-- The nodes entered by `evs`, in order. -/
def entriesOf (evs : List Event) : List String := evs.filterMap Event.entry

@[simp] theorem entriesOf_append (l l' : List Event) : entriesOf (l ++ l') = entriesOf l ++ entriesOf l' := List.filterMap_append

/-- Everything but the events that bring a state of their own. -/
def Payload.goes (p : Payload) : Bool := p.plain || p.terminal

def Payload.enters : Payload → Bool
  | .entered _ => true
  | _ => false

/-- The errors that are no verdict on a command. -/
def Err.inner : Err → Prop
  | .other _ | .apply _ | .panic _ | .fuel => True
  | _ => False

theorem Err.inner_of {e : Err} (h : ¬e.benign) : e.inner := by
  cases e with
  | other _ | apply _ | panic _ | fuel => trivial
  | _ => exact h trivial

/-! ## Errors of `Apply` -/

namespace State

variable {s : State} {quote : String → String} {fl : Flow} {ev : Event} {e : Err}

theorem recordItem_error {owner : String} {m : MapRun} {i : Nat} {out : Raw} (h : s.recordItem owner m i out = .error e) :
    ¬e.benign := by
  unfold recordItem at h
  split at h
  · cases h
  · cases h; exact id

theorem applyNodeDone_error {d : Event.NodeDone} (h : s.applyNodeDone quote fl d = .error e) : ¬e.benign := by
  unfold applyNodeDone at h
  split at h
  · cases h; exact id
  · split at h
    · cases h; exact id
    · rename_i t _ _ channels _
      cases hr : ({ s with channels }.addUsage d.usage).recordOutput t d.output with
      | ok s₁ => rw [hr] at h; cases h
      | error e' =>
        rw [hr] at h
        cases h
        unfold recordOutput at hr
        split at hr
        · split at hr
          · exact recordItem_error hr
          · cases hr
        · cases hr

theorem applyChildDone_error {d : Event.ChildDone} (h : s.applyChildDone d = .error e) : ¬e.benign := by
  unfold applyChildDone at h
  simp only at h
  split at h
  · cases h
  · split at h
    · split at h
      · exact recordItem_error h
      · cases h
    · cases h

theorem applyData_error (h : s.applyData quote fl ev = .error e) : ¬e.benign := by
  unfold applyData at h
  cases hd : ev.data with
  | nodeDone d => rw [hd] at h; exact applyNodeDone_error h
  | childDone d => rw [hd] at h; exact applyChildDone_error h
  | interrupted d =>
    simp only [hd, applyInterrupted] at h
    split at h <;> cases h
    exact id
  | update d =>
    simp only [hd, applyUpdate] at h
    split at h <;> cases h
    exact id
  | mapDone d =>
    simp only [hd, applyMapDone] at h
    split at h <;> cases h
    exact id
  | signalUse d =>
    simp only [hd, applySignalUse] at h
    split at h <;> cases h
    exact id
  | _ => rw [hd] at h; cases h

theorem apply_error (h : s.apply quote fl ev = .error e) : ¬e.benign := by
  unfold apply at h
  split at h
  · cases h; exact id
  · cases hd : s.applyData quote fl ev with
    | ok s₁ => rw [hd] at h; cases h
    | error e' =>
      rw [hd] at h
      cases h
      exact applyData_error hd

end State

/-! ## Following the entries -/

/-- What a program did between `s` and `s'`: the kinds of its events, its entries within `E`, each of them counted. -/
structure Visited (E : List String → Prop) (s s' : State) (evs : List Event) : Prop where
  kinds : ∀ ev ∈ evs, ev.data.goes = true
  steps : s'.steps = s.steps + (entriesOf evs).length
  entries : E (entriesOf evs)

def Visits {α : Type} (m : DecM α) (s : State) (E : List String → Prop) : Prop :=
  Yields Err.inner m s fun _ s' evs => Visited E s s' evs

section
variable {c : Ctx} {s : State} {E E' : List String → Prop}

theorem entriesOf_event {p : Payload} (h : p.enters = false) : entriesOf [c.event p s] = [] := by
  cases p <;> first | rfl | cases h

theorem apply_steps {p : Payload} {s' : State} (hg : p.goes = true) (he : p.enters = false)
    (ha : c.apply s (c.event p s) = .ok s') : s'.steps = s.steps := by
  have hstep : s'.steps = _ :=
    (congrArg Work.steps (State.apply_work ha)).trans (congrArg Prod.snd (s.work.books_step (c.event p s).data))
  cases p with
  | entered d => cases he
  | _ => first | exact hstep | cases hg

namespace Visits

variable {α : Type}

theorem pure {a : α} (h : E []) : Visits (Pure.pure a : DecM α) s E :=
  Yields.pure ⟨by simp, rfl, h⟩

theorem throw {e : Err} (h : e.inner) : Visits (MonadExcept.throw e : DecM α) s E := Yields.throw h

theorem mono {m : DecM α} (h : Visits m s E) (hE : ∀ l, E l → E' l) : Visits m s E' :=
  Yields.mono h fun _ _ _ hv => ⟨hv.kinds, hv.steps, hE _ hv.entries⟩

theorem read {f : State → DecM α} (h : Visits (f s) s E) : Visits (getSt >>= f) s E := h

theorem bind {β : Type} {m : DecM α} {f : α → DecM β} (hm : Visits m s E)
    (hf : ∀ a s' l, E l → s'.steps = s.steps + l.length → Visits (f a) s' fun l' => E' (l ++ l')) : Visits (m >>= f) s E' := by
  refine Yields.bind hm fun a s' evs hv => Yields.mono (hf a s' _ hv.entries hv.steps) fun _ s'' evs' hv' => ⟨?_, ?_, ?_⟩
  · intro ev hev
    exact (List.mem_append.1 hev).elim (hv.kinds ev) (hv'.kinds ev)
  · rw [hv'.steps, hv.steps, entriesOf_append, List.length_append, Nat.add_assoc]
  · rw [entriesOf_append]
    exact hv'.entries

/-- After a program that enters nothing. -/
theorem after {β : Type} {m : DecM α} {f : α → DecM β} (hm : Visits m s (· = []))
    (hf : ∀ a s', s'.steps = s.steps → Visits (f a) s' E) : Visits (m >>= f) s E := by
  refine hm.bind fun a s' l hl hst => ?_
  subst hl
  exact hf a s' hst

theorem emit {p : Payload} (hg : p.goes = true) (he : p.enters = false) (h : E []) : Visits (emit c p) s E := by
  refine Yields.emit (fun s' ha => ⟨?_, ?_, ?_⟩) fun e ha => Err.inner_of (State.apply_error ha)
  · intro ev hev
    rw [List.mem_singleton.1 hev]
    exact hg
  · rw [entriesOf_event he]
    exact apply_steps hg he ha
  · rw [entriesOf_event he]
    exact h

theorem entered {d : Event.Entered} : Visits (Packtrail.emit c (.entered d)) s (· = [d.node]) := by
  refine Yields.emit (fun s' ha => ⟨?_, ?_, rfl⟩) fun e ha => Err.inner_of (State.apply_error ha)
  · intro ev hev
    rw [List.mem_singleton.1 hev]
    rfl
  · exact congrArg Work.steps (State.apply_work ha)

end Visits

/-- Programs that enter no node. -/
def Stays {α : Type} (m : DecM α) : Prop := ∀ s, Visits m s (· = [])

namespace Stays

variable {α : Type}

theorem pure (a : α) : Stays (Pure.pure a : DecM α) := fun _ => .pure rfl

theorem throw {e : Err} (h : e.inner) : Stays (MonadExcept.throw e : DecM α) := fun _ => .throw h

theorem emit {p : Payload} (hg : p.goes = true) (he : p.enters = false) : Stays (emit c p) := fun _ => .emit hg he rfl

theorem read {f : State → DecM α} (h : ∀ s, Stays (f s)) : Stays (getSt >>= f) := fun s => .read (h s s)

theorem bind {β : Type} {m : DecM α} {f : α → DecM β} (hm : Stays m) (hf : ∀ a, Stays (f a)) : Stays (m >>= f) :=
  fun s => (hm s).after fun a s' _ => hf a s'

theorem ite {p : Prop} [Decidable p] {m m' : DecM α} (h : Stays m) (h' : Stays m') : Stays (if p then m else m') := by
  split
  · exact h
  · exact h'

theorem visits {m : DecM α} (h : Stays m) (hE : E []) : Visits m s E := (h s).mono fun _ hl => hl ▸ hE

end Stays

/-! ### What enters nothing -/

theorem fail_stays (reason msg node : String) : Stays (fail c reason msg node) :=
  .read fun _ _ => Yields.getAux fun _ => Stays.emit rfl rfl _

theorem complete0_stays : Stays (complete0 c) := by
  refine .read fun s => .ite ?_ (.ite (.emit rfl rfl) (.emit rfl rfl))
  split
  · exact fail_stays _ _ _
  · split
    · exact fail_stays _ _ _
    · exact .ite (.emit rfl rfl) (.ite (.emit rfl rfl) (fail_stays _ _ _))

theorem timerAt_stays (p : TimerPurpose) (after : Int) (key node : String) (gen attempt : Nat) :
    Stays (timerAt c p after key node gen attempt) := .read fun _ => .emit rfl rfl

theorem schedule_stays (n : Node) (key owner : String) (index : Nat) (item : Raw) (rs : Resumption) (gen attempt : Nat) :
    Stays (schedule c n key owner index item rs gen attempt) :=
  .read fun _ => .bind (.emit rfl rfl) fun _ => .ite (timerAt_stays _ _ _ _ _ _) (.pure _)

theorem startChild_stays (n : Node) (key owner : String) (index : Nat) (item : Raw) :
    Stays (startChild c n key owner index item) := by
  refine .read fun s => ?_
  simp only
  split
  · exact fail_stays _ _ _
  · exact .ite (.emit rfl rfl) (fail_stays _ _ _)

theorem mapLoop_stays (n : Node) (items : List Json) (limit : Int) (rounds : Nat) : Stays (mapLoop c n items limit rounds) := by
  induction rounds with
  | zero => exact .pure _
  | succ rounds ih =>
    refine .read fun s => ?_
    split
    · exact .throw trivial
    · refine .ite ?_ (.pure _)
      split
      · exact .pure _
      · have hrest : Stays (do
            let s ← getSt
            if s.status.terminal then pure () else mapLoop c n items limit rounds) := .read fun _ => .ite (.pure _) ih
        exact .ite (.bind (startChild_stays _ _ _ _ _) fun _ => hrest) (.bind (schedule_stays _ _ _ _ _ _ _ _) fun _ => hrest)

/-! ### Routes -/

/-- The entries of a fan-out that opens: nothing, or its first branches. -/
def OneFan (fl : Flow) (l : List String) : Prop := l = [] ∨ ∃ n ∈ fl.nodes, n.type = .fanout ∧ l <+: n.branches

/-- Routed entries within the limit, then those of at most one fan-out. -/
def WithinSteps (fl : Flow) (steps : Nat) (l : List String) : Prop :=
  ∃ routed branches, l = routed ++ branches ∧ routed.length ≤ fl.maxStepsOrDefault - steps ∧ OneFan fl branches

theorem WithinSteps.nil (fl : Flow) (steps : Nat) : WithinSteps fl steps [] := ⟨[], [], rfl, Nat.zero_le _, .inl rfl⟩

theorem WithinSteps.cons {fl : Flow} {steps : Nat} {id : String} {l : List String} (hs : steps < fl.maxStepsOrDefault)
    (h : WithinSteps fl (steps + 1) l) : WithinSteps fl steps (id :: l) := by
  obtain ⟨r, b, rfl, hr, hb⟩ := h
  exact ⟨id :: r, b, rfl, by rw [List.length_cons]; omega, hb⟩

/-- `k` makes only counted entries, besides those of the fan-out it may end with. -/
def Routes (c : Ctx) (k : String → DecM Unit) : Prop := ∀ id s, Visits (k id) s (WithinSteps c.fl s.steps)

section
variable {k : String → DecM Unit} (hk : Routes c k)
include hk

theorem advance_visits (n : Node) (dyn : String) (s : State) : Visits (advance c k n dyn) s (WithinSteps c.fl s.steps) := by
  unfold advance
  generalize (if dyn = "" then n.next else dyn) = next
  by_cases hend : next = ""
  · rw [if_pos hend]
    exact complete0_stays.visits (.nil _ _)
  · rw [if_neg hend]
    exact hk next s

/-- An event, then on to the next node. -/
theorem emit_advance_visits {p : Payload} (hg : p.goes = true) (he : p.enters = false) (n : Node) (s : State) :
    Visits (do emit c p; advance c k n "") s (WithinSteps c.fl s.steps) :=
  (Stays.emit hg he s).after fun _ s' hs => hs ▸ advance_visits hk n "" s'

theorem mapProgress_visits (n : Node) (s : State) : Visits (mapProgress c k n) s (WithinSteps c.fl s.steps) := by
  refine .read ?_
  split
  · exact .throw trivial
  · split
    · exact emit_advance_visits hk rfl rfl n s
    · exact (mapLoop_stays _ _ _ _).visits (.nil _ _)

theorem mapStart_visits (n : Node) (s : State) : Visits (mapStart c k n) s (WithinSteps c.fl s.steps) := by
  refine .read ?_
  split
  · exact (fail_stays _ _ _).visits (.nil _ _)
  · split
    · exact (fail_stays _ _ _).visits (.nil _ _)
    · split
      · exact .throw trivial
      · exact (Stays.emit rfl rfl s).after fun _ s' hs => hs ▸ mapProgress_visits hk n s'

theorem consume_visits (n : Node) (s : State) : Visits (consume c k n) s (WithinSteps c.fl s.steps) := by
  refine .read ?_
  split
  · exact .pure (.nil _ _)
  · exact emit_advance_visits hk rfl rfl n s

theorem await_visits (n : Node) (s : State) : Visits (await c k n) s (WithinSteps c.fl s.steps) :=
  .read ((Stays.emit rfl rfl s).after fun _ s₁ h₁ => (Stays.emit rfl rfl s₁).after fun _ s₂ h₂ =>
    h₁ ▸ h₂ ▸ consume_visits hk n s₂)

theorem choose_visits (n : Node) (s : State) : Visits (choose c k n) s (WithinSteps c.fl s.steps) := by
  refine .read ?_
  split
  · refine (Stays.emit rfl rfl s).after fun _ s' hs => ?_
    split
    · exact complete0_stays.visits (.nil _ _)
    · exact hs ▸ hk _ s'
  · exact (Stays.emit rfl rfl s).after fun _ s' _ => (fail_stays _ _ _).visits (.nil _ _)
  · exact .throw trivial

end

/-- The branches are entered in order; a child that cannot start ends the loop. -/
theorem startBranches_visits (fan : String) : ∀ (bs : List String) (s : State), Visits (startBranches c fan bs) s (· <+: bs)
  | [], _ => .pure List.prefix_rfl
  | b :: bs, s => by
    refine Visits.entered.bind fun _ s₁ l hl _ => ?_
    subst hl
    have hrest : ∀ s₂, Visits (do
        let s ← getSt
        if s.status.terminal then pure () else startBranches c fan bs) s₂ (fun l => [b] ++ l <+: b :: bs) := by
      intro s₂
      refine .read ?_
      split
      · exact .pure (by simp)
      · exact (startBranches_visits fan bs s₂).mono fun l hl => by simpa using hl
    split
    · exact .throw trivial
    · split
      · exact (startChild_stays _ _ _ _ _ s₁).after fun _ s₂ _ => hrest s₂
      · exact (schedule_stays _ _ _ _ _ _ _ _ s₁).after fun _ s₂ _ => hrest s₂

theorem fanout_visits {n : Node} (hn : n ∈ c.fl.nodes) (ht : n.type = .fanout) (s : State) :
    Visits (fanout c n) s (WithinSteps c.fl s.steps) :=
  (Stays.emit rfl rfl s).after fun _ s' _ => (startBranches_visits n.id n.branches s').mono fun l hl =>
    ⟨[], l, rfl, Nat.zero_le _, .inr ⟨n, hn, ht, hl⟩⟩

theorem enterStep_visits {k : String → DecM Unit} (hk : Routes c k) : Routes c (enterStep c k) := by
  intro id s
  refine .read ?_
  split
  · exact (fail_stays _ _ _).visits (.nil _ _)
  · rename_i n hn
    split
    · exact (fail_stays _ _ _).visits (.nil _ _)
    · rename_i hroom
      refine Visits.entered.bind fun _ s₁ l hl hs => ?_
      subst hl
      have hs : s₁.steps = s.steps + 1 := hs
      refine Visits.mono (E := WithinSteps c.fl s₁.steps) ?_ fun l hl => .cons (by omega) (hs ▸ hl)
      split
      · exact (schedule_stays _ _ _ _ _ _ _ _).visits (.nil _ _)
      · exact choose_visits hk n s₁
      · exact fanout_visits (Flow.node_mem hn) ‹_› s₁
      · exact await_visits hk n s₁
      · exact mapStart_visits hk n s₁
      · exact (startChild_stays _ _ _ _ _).visits (.nil _ _)
      · exact (fail_stays _ _ _).visits (.nil _ _)
      · exact (fail_stays _ _ _).visits (.nil _ _)

theorem enterFuel_visits : ∀ f, Routes c (enterFuel c f)
  | 0 => enterStep_visits fun _ _ => .throw trivial
  | f + 1 => enterStep_visits (enterFuel_visits f)

theorem enter_visits : Routes c (enter c) := fun id s => .read (enterFuel_visits _ id s)

/-! ### Settling

A decision may close one join before it goes on. -/

/-- At most the entry of a join that closes, then routed entries within the limit and those of at most one fan-out. -/
def CountedSteps (fl : Flow) (steps : Nat) (evs : List Event) : Prop :=
  ∃ pre post, evs = pre ++ post ∧ WithinSteps fl steps (entriesOf post) ∧
    (entriesOf pre = [] ∨ ∃ ev ∈ pre, ∃ d, ev.data = .join d ∧ entriesOf pre = [d.node])

theorem WithinSteps.mono {fl : Flow} {steps steps' : Nat} {l : List String} (h : WithinSteps fl steps l) (hs : steps' ≤ steps) :
    WithinSteps fl steps' l := by
  obtain ⟨r, b, rfl, hr, hb⟩ := h
  exact ⟨r, b, rfl, by omega, hb⟩

def Settles (c : Ctx) (m : DecM Unit) (s : State) : Prop := Yields Err.inner m s fun _ _ evs => CountedSteps c.fl s.steps evs

namespace Settles

theorem of_visits {m : DecM Unit} (h : Visits m s (WithinSteps c.fl s.steps)) : Settles c m s :=
  Yields.mono h fun _ _ evs hv => ⟨[], evs, rfl, hv.entries, .inl rfl⟩

theorem of_stays {m : DecM Unit} (h : Stays m) : Settles c m s := of_visits (h.visits (.nil _ _))

theorem after {α : Type} {m : DecM α} {f : α → DecM Unit} (hm : Stays m)
    (hf : ∀ a s', s'.steps = s.steps → Settles c (f a) s') : Settles c (m >>= f) s := by
  refine Yields.bind (hm s) fun a s' evs hv => ?_
  have hnone : entriesOf evs = [] := hv.entries
  have hs : s'.steps = s.steps := by rw [hv.steps, hnone]; rfl
  refine Yields.mono (hf a s' hs) fun _ _ evs' hc => ?_
  obtain ⟨pre, post, rfl, hw, hj⟩ := hc
  refine ⟨evs ++ pre, post, (List.append_assoc _ _ _).symm, hs ▸ hw, ?_⟩
  rw [entriesOf_append, hnone, List.nil_append]
  exact hj.imp_right fun ⟨ev, hev, d, hd, he⟩ => ⟨ev, List.mem_append_right _ hev, d, hd, he⟩

theorem read {f : State → DecM Unit} (h : Settles c (f s) s) : Settles c (getSt >>= f) s := h

theorem throw {e : Err} (h : e.inner) : Settles c (MonadExcept.throw e) s := Yields.throw h

theorem pure : Settles c (Pure.pure ()) s := of_stays (.pure _)

end Settles

theorem enter_settles (id : String) : Settles c (enter c id) s := .of_visits (enter_visits id s)

theorem advance_settles (n : Node) (dyn : String) : Settles c (advance c (enter c) n dyn) s :=
  .of_visits (advance_visits enter_visits n dyn s)

theorem cancelTasks_stays (owner reason : String) (keys : List String) : Stays (cancelTasks c owner reason keys) := by
  induction keys with
  | nil => exact .pure _
  | cons key keys ih =>
    refine .read fun s => ?_
    split
    · exact .throw trivial
    · split
      · exact .bind (.emit rfl rfl) fun _ => ih
      · exact ih

/-- A join is entered and closed, then the flow goes on. -/
theorem close_settles {m : DecM Unit} {d : Event.Join} {id : String} (hd : d.node = id)
    (hm : ∀ s', Visits m s' (WithinSteps c.fl s'.steps)) :
    Settles c (do emit c (.entered { node := id }); emit c (.join d); m) s := by
  refine Yields.bind Visits.entered fun _ s₁ evs₁ h₁ => ?_
  have hent : entriesOf evs₁ = [id] := h₁.entries
  have hs₁ : s₁.steps = s.steps + 1 := by rw [h₁.steps, hent]; rfl
  have hjoin : Yields Err.inner (emit c (.join d)) s₁ fun _ s₂ evs₂ => s₂.steps = s₁.steps ∧ evs₂ = [c.event (.join d) s₁] :=
    Yields.emit (fun s₂ ha => ⟨apply_steps rfl rfl ha, rfl⟩) fun _ ha => Err.inner_of (State.apply_error ha)
  refine Yields.bind hjoin fun _ s₂ evs₂ ⟨hs₂, he⟩ => Yields.mono (hm s₂) fun _ _ evs₃ hv => ?_
  subst he
  refine ⟨evs₁ ++ [c.event (.join d) s₁], evs₃, (List.append_assoc _ _ _).symm, hv.entries.mono (by omega), .inr ?_⟩
  refine ⟨c.event (.join d) s₁, List.mem_append_right _ List.mem_cons_self, d, rfl, ?_⟩
  rw [entriesOf_append, hent, entriesOf_event rfl, hd]
  rfl

theorem closeJoin_settles (fan : String) (join : Node) (succeeded failed : List String) (ok : Bool) :
    Settles c (closeJoin c fan join succeeded failed ok) s := by
  refine .read (.after (cancelTasks_stays _ _ _) fun _ s₁ _ => .read (close_settles rfl fun s₂ => ?_))
  split
  · exact advance_visits enter_visits _ _ s₂
  · split
    · exact enter_visits _ s₂
    · exact (fail_stays _ _ _).visits (.nil _ _)

theorem evalJoin_settles (fan : String) : Settles c (evalJoin c fan) s := by
  refine .read ?_
  split
  · exact .throw trivial
  · split
    · exact .throw trivial
    · simp only
      split
      · exact .pure
      · exact closeJoin_settles _ _ _ _ _

theorem abortMap_settles (n : Node) (index : Nat) : Settles c (abortMap c n index) s :=
  .read (.after (cancelTasks_stays _ _ _) fun _ _ _ => .read (.after (.emit rfl rfl) fun _ _ _ => enter_settles _))

theorem nodeOf_stays (id : String) : Stays (nodeOf c id) := by
  unfold nodeOf
  split
  · exact .pure _
  · exact .throw trivial

theorem mapProgress_settles (n : Node) : Settles c (mapProgress c (enter c) n) s :=
  .of_visits (mapProgress_visits enter_visits n s)

theorem afterSettle_settles (t : Task) (n : Node) (dyn : String) : Settles c (afterSettle c t n dyn) s := by
  refine .read ?_
  split
  · exact .pure
  · split
    · exact evalJoin_settles _
    · split
      · exact mapProgress_settles n
      · exact advance_settles n dyn

theorem taskFailed_settles (t : Task) (msg : String) (retryable : Bool) (reason : String) (usage : SMap Rat) :
    Settles c (taskFailed c t msg retryable reason usage) s := by
  refine .after (nodeOf_stays _) fun n s₁ _ => .read (.after (.emit rfl rfl) fun _ s₂ _ => ?_)
  split
  · exact .of_stays (fail_stays _ _ _)
  · split
    · exact .of_stays (.ite (schedule_stays _ _ _ _ _ _ _ _) (timerAt_stays _ _ _ _ _ _))
    · refine .read ?_
      split
      · exact evalJoin_settles _
      · split
        · split
          · exact abortMap_settles _ _
          · exact enter_settles _
        · exact .of_stays (fail_stays _ _ _)

theorem complete_settles (p : Cmd.CompleteData) : Settles c (complete c p) s := by
  refine .read ?_
  split
  · exact .pure
  · refine .after (nodeOf_stays _) fun n s₁ _ => ?_
    generalize (if isNull p.output = true then none else p.output) = output
    simp only
    split
    · exact taskFailed_settles _ _ _ _ _
    · refine .after (.emit rfl rfl) fun _ s₂ _ => .read ?_
      split
      · exact .of_stays (fail_stays _ _ _)
      · exact afterSettle_settles _ _ _

theorem failTask_settles (p : Cmd.FailData) : Settles c (failTask c p) s := by
  refine .read ?_
  split
  · exact .pure
  · exact taskFailed_settles _ _ _ _ _

theorem interrupt_stays (p : Cmd.InterruptData) : Stays (interrupt c p) := by
  refine .read fun s => ?_
  split
  · exact .pure _
  · refine .bind (.emit rfl rfl) fun _ => .read fun s => ?_
    split
    · exact fail_stays _ _ _
    · exact .pure _

theorem resume_stays (p : Cmd.ResumeData) : Stays (resume c p) := by
  refine .read fun s => ?_
  split
  · exact .pure _
  · exact .bind (nodeOf_stays _) fun _ => schedule_stays _ _ _ _ _ _ _ _

theorem awaitTimeout_settles (tm : Timer) : Settles c (awaitTimeout c tm) s := by
  refine .read ?_
  split
  · exact .pure
  · split
    · refine .after (nodeOf_stays _) fun n s₁ _ => .after (.emit rfl rfl) fun _ s₂ _ => ?_
      split
      · exact .of_stays (fail_stays _ _ _)
      · exact enter_settles _
    · exact .pure

theorem timer_settles (p : Cmd.TimerData) : Settles c (timer c p) s := by
  refine .read ?_
  split
  · exact .pure
  · refine .after (.emit rfl rfl) fun _ s₁ _ => .read ?_
    split
    · split
      · exact .pure
      · split
        · exact .after (nodeOf_stays _) fun _ _ _ => .of_stays (schedule_stays _ _ _ _ _ _ _ _)
        · exact .pure
    · split
      · exact .pure
      · exact taskFailed_settles _ _ _ _ _
    · exact awaitTimeout_settles _

theorem childDone_settles (p : Cmd.ChildDoneData) : Settles c (childDone c p) s := by
  refine .read ?_
  split
  · exact .pure
  · refine .after (.emit rfl rfl) fun _ s₁ _ => .read ?_
    split
    · exact .of_stays (fail_stays _ _ _)
    · refine .after (nodeOf_stays _) fun n s₂ _ => ?_
      simp only
      split
      · exact evalJoin_settles _
      · split
        · split
          · exact mapProgress_settles n
          · split
            · exact abortMap_settles _ _
            · exact .of_stays (fail_stays _ _ _)
        · split
          · exact advance_settles n ""
          · split
            · exact enter_settles _
            · exact .of_stays (fail_stays _ _ _)

/-- Every command, whether it is refused or not. -/
theorem decideData_counted (d : CmdData) :
    Yields (fun _ => True) (decideData c d) s fun _ _ evs => CountedSteps c.fl s.steps evs := by
  have hany : ∀ {m : DecM Unit} {s' : State}, s'.steps = s.steps → Settles c m s' →
      Yields (fun _ => True) m s' fun _ _ evs => CountedSteps c.fl s.steps evs := fun hs h out aux => by
    have h := h out aux
    rw [hs] at h
    revert h
    split
    · exact id
    · exact fun _ => trivial
  cases d with
  | start p =>
    refine Yields.getSt ?_
    split
    · split
      · exact hany rfl .pure
      · exact Yields.throw trivial
    · generalize (if isNull p.input = true then Json.obj [] else p.input.encoded) = input
      simp only
      split
      · split
        · exact Yields.throw trivial
        · have hstart : ∀ d, Yields (fun _ => True) (emit c (.started d)) s fun _ s' evs => s'.steps = s.steps ∧ entriesOf evs = [] :=
            fun d => Yields.emit (fun s' ha => ⟨congrArg Work.steps (State.apply_work ha), rfl⟩) fun _ _ => trivial
          refine Yields.bind (hstart _) fun _ s' evs ⟨hs, he⟩ => ?_
          refine Yields.mono (hany hs (enter_settles _)) fun _ _ evs' hc => ?_
          obtain ⟨pre, post, rfl, hw, hj⟩ := hc
          refine ⟨evs ++ pre, post, (List.append_assoc _ _ _).symm, hw, ?_⟩
          rw [entriesOf_append, he, List.nil_append]
          exact hj.imp_right fun ⟨ev, hev, h⟩ => ⟨ev, List.mem_append_right _ hev, h⟩
      · exact Yields.throw trivial
  | complete p => exact hany rfl (complete_settles p)
  | fail p => exact hany rfl (failTask_settles p)
  | interrupt p => exact hany rfl (.of_stays (interrupt_stays p))
  | resume p => exact hany rfl (.of_stays (resume_stays p))
  | signal p =>
    simp only [decideData, signal]
    split
    · exact Yields.throw trivial
    · refine hany rfl (.read ?_)
      split
      · exact .pure
      · refine .after (.emit rfl rfl) fun _ s₁ _ => .read ?_
        split
        · exact .pure
        · exact .after (nodeOf_stays _) fun n s₂ _ => .of_visits (consume_visits enter_visits n s₂)
  | cancel p =>
    refine hany rfl (.of_stays (.read fun _ _ => Yields.getAux fun _ => ?_))
    exact Stays.emit rfl rfl _
  | timer p => exact hany rfl (timer_settles p)
  | childDone p => exact hany rfl (childDone_settles p)
  | update writes =>
    refine Yields.getSt ?_
    split
    · exact Yields.throw trivial
    · split
      · exact hany rfl .pure
      · split
        · exact Yields.throw trivial
        · exact hany rfl (.of_stays (.emit rfl rfl))
  | undecodable t e => exact Yields.throw trivial
  | operational t => exact Yields.throw trivial

/-! ## The recursion budget

Every nested call of `enter` comes after an entry, so from a state with `steps` entries no more than `max_steps - steps` of
them are nested. A budget that covers them all is never what ends the recursion. -/

/-- The programs do the same once `j` nodes were entered. -/
def SameFrom (j : Nat) (m m' : DecM Unit) : Prop := ∀ d : Session State Event (List String), j ≤ d.st.steps → m d = m' d

namespace SameFrom

variable {j : Nat} {m m' : DecM Unit}

theorem refl (m : DecM Unit) : SameFrom j m m := fun _ _ => rfl

theorem read {f f' : State → DecM Unit} (h : ∀ s, SameFrom j (f s) (f' s)) : SameFrom j (getSt >>= f) (getSt >>= f') :=
  fun d hd => h d.st d hd

theorem ite {p : Prop} [Decidable p] {n n' : DecM Unit} (h : SameFrom j m m') (h' : SameFrom j n n') :
    SameFrom j (if p then m else n) (if p then m' else n') := by
  split
  · exact h
  · exact h'

/-- After an event that makes `i` entries. -/
theorem after {p : Payload} {i : Nat} (hp : ∀ s s', c.apply s (c.event p s) = .ok s' → s'.steps = s.steps + i)
    (h : SameFrom (j + i) m m') : SameFrom j (do emit c p; m) (do emit c p; m') := by
  intro d hd
  show EStateM.bind (emit c p) (fun _ => m) d = EStateM.bind (emit c p) (fun _ => m') d
  unfold EStateM.bind emit emitWith
  cases ha : c.apply d.st (c.event p d.st) with
  | error e => rfl
  | ok s' =>
    have hs := hp d.st s' ha
    exact h _ (by simp only; omega)

theorem emit {p : Payload} (hg : p.goes = true) (he : p.enters = false) (h : SameFrom j m m') :
    SameFrom j (do Packtrail.emit c p; m) (do Packtrail.emit c p; m') :=
  after (i := 0) (fun _ _ ha => apply_steps hg he ha) h

theorem entered {d : Event.Entered} (h : SameFrom (j + 1) m m') :
    SameFrom j (do Packtrail.emit c (.entered d); m) (do Packtrail.emit c (.entered d); m') :=
  after (fun _ _ ha => congrArg Work.steps (State.apply_work ha)) h

end SameFrom

section
variable {j : Nat} {k k' : String → DecM Unit} (hk : ∀ id, SameFrom j (k id) (k' id))
include hk

theorem advance_same (n : Node) (dyn : String) : SameFrom j (advance c k n dyn) (advance c k' n dyn) := .ite (.refl _) (hk _)

theorem mapProgress_same (n : Node) : SameFrom j (mapProgress c k n) (mapProgress c k' n) := by
  refine .read fun s => ?_
  split
  · exact .refl _
  · exact .ite (.emit rfl rfl (advance_same hk _ _)) (.refl _)

theorem mapStart_same (n : Node) : SameFrom j (mapStart c k n) (mapStart c k' n) := by
  refine .read fun s => ?_
  split
  · exact .refl _
  · refine .ite (.refl _) ?_
    split
    · exact .refl _
    · exact .emit rfl rfl (mapProgress_same hk n)

theorem consume_same (n : Node) : SameFrom j (consume c k n) (consume c k' n) := by
  refine .read fun s => ?_
  split
  · exact .refl _
  · exact .emit rfl rfl (advance_same hk _ _)

theorem await_same (n : Node) : SameFrom j (await c k n) (await c k' n) :=
  .read fun _ => .emit rfl rfl (.emit rfl rfl (consume_same hk n))

theorem choose_same (n : Node) : SameFrom j (choose c k n) (choose c k' n) := by
  refine .read fun s => ?_
  split
  · exact .emit rfl rfl (.ite (.refl _) (hk _))
  · exact .refl _
  · exact .refl _

end

theorem enterStep_same {j : Nat} {k k' : String → DecM Unit} (hk : ∀ id, SameFrom (j + 1) (k id) (k' id)) (id : String) :
    SameFrom j (enterStep c k id) (enterStep c k' id) := by
  refine .read fun s => ?_
  split
  · exact .refl _
  · refine .ite (.refl _) (.entered ?_)
    split
    · exact .refl _
    · exact choose_same hk _
    · exact .refl _
    · exact await_same hk _
    · exact mapStart_same hk _
    · exact .refl _
    · exact .refl _
    · exact .refl _

/-- At the limit nothing is entered. -/
theorem enterStep_full {k k' : String → DecM Unit} (id : String) {d : Session State Event (List String)}
    (h : c.fl.maxStepsOrDefault ≤ d.st.steps) : enterStep c k id d = enterStep c k' id d := by
  have hfull : c.fl.maxStepsOrDefault < d.st.steps + 1 := by omega
  have hget : ∀ g : State → DecM Unit, (getSt >>= g) d = g d.st d := fun _ => rfl
  unfold enterStep
  rw [hget, hget]
  cases c.fl.node id with
  | none => rfl
  | some n => simp only [hfull, if_true]

/-- Any two budgets that cover the entries left give the same run. -/
theorem enterFuel_enough : ∀ (f f' : Nat) (id : String) (d : Session State Event (List String)),
    c.fl.maxStepsOrDefault - d.st.steps ≤ f → c.fl.maxStepsOrDefault - d.st.steps ≤ f' →
    enterFuel c f id d = enterFuel c f' id d
  | 0, 0, _, _, _, _ => rfl
  | 0, f' + 1, id, d, hf, _ => enterStep_full id (by omega)
  | f + 1, 0, id, d, _, hf' => enterStep_full id (by omega)
  | f + 1, f' + 1, id, d, hf, hf' =>
    enterStep_same (j := d.st.steps) (fun id' d' hd => enterFuel_enough f f' id' d' (by omega) (by omega)) id d (Nat.le_refl _)

end

/-! ## Decisions -/

theorem Yields.decision {B : Err → Prop} {m : DecM Unit} {s : State} {P : Unit → State → List Event → Prop} (h : Yields B m s P)
    {evs : List Event} (hok : (runDecision m s).result = .ok evs) : P () (runDecision m s).state evs := by
  have h := h [] []
  unfold runDecision at hok ⊢
  revert h hok
  cases m { st := s, out := [], aux := [] } with
  | error e d => intro hok; cases hok
  | ok a d =>
    rintro hok ⟨evs', ho, hp⟩
    cases hok
    rw [List.nil_append] at ho
    exact ho ▸ hp

theorem Yields.refused {B : Err → Prop} {m : DecM Unit} {s : State} {P : Unit → State → List Event → Prop} (h : Yields B m s P)
    {e : Err} (hbad : (runDecision m s).result = .error e) : B e := by
  have h := h [] []
  unfold runDecision at hbad
  revert h hbad
  cases m { st := s, out := [], aux := [] } with
  | error e' d =>
    intro hbad h
    cases hbad
    exact h
  | ok a d => intro hbad; cases hbad

theorem decide_counted {x : Ext} {fl : Flow} {s : State} {cmd : Command} {now : Time} {evs : List Event}
    (hok : (Packtrail.decide x fl s cmd now).result = .ok evs) : CountedSteps fl s.steps evs := by
  rcases decide_cases x fl s cmd now with he | he | ⟨e, he⟩
  · rw [he] at hok
    exact Yields.decision (decideData_counted (c := ⟨x, fl, now, cmd.id⟩) cmd.data) hok
  · rw [he] at hok
    cases hok
    exact ⟨[], [], rfl, .nil _ _, .inl rfl⟩
  · rw [he] at hok
    cases hok

/-- **Every decision ends**: the recursion budget is never used up, its entries are counted, and more of it would not have
changed a run of `enter` from any session. -/
theorem decision_ends {x : Ext} {fl : Flow} {s : State} {log : List (List Event)} (hv : validate x fl = [])
    (h : Reachable x fl s log) (cmd : Command) (now : Time) :
    (Packtrail.decide x fl s cmd now).result ≠ .error .fuel ∧
    (∀ evs, (Packtrail.decide x fl s cmd now).result = .ok evs → CountedSteps fl s.steps evs) ∧
    ∀ (budget : Nat) (id : String) (d : Session State Event (List String)), fl.maxStepsOrDefault - d.st.steps ≤ budget →
      enterFuel ⟨x, fl, now, cmd.id⟩ budget id d = enter ⟨x, fl, now, cmd.id⟩ id d := by
  refine ⟨fun hfuel => ?_, fun evs hok => decide_counted hok, fun budget id d hb => enterFuel_enough _ _ id d hb (Nat.le_refl _)⟩
  obtain ⟨b, hd⟩ := h.decides (wellFormed_of_validate hv) (Ask.sourced_command x fl cmd) now
  have hfuel : ((Request.ask (.command cmd)).perform x fl s now).result = .error .fuel := hfuel
  rcases hd with ⟨evs, hr, -⟩ | ⟨e, hr, hbenign⟩
  · rw [hfuel] at hr
    cases hr
  · rw [hfuel] at hr
    cases hr
    exact hbenign

/-- Two choices that lead to each other. -/
def spinReview : Flow :=
  { oneTask with
    start := "ask", maxSteps := 3
    nodes := [{ id := "ask", type := .choice, rules := [{ default := true, toNode := "back" }] },
      { id := "back", type := .choice, rules := [{ default := true, toNode := "ask" }] }] }

theorem spinReview_ends :
    (Packtrail.decide plainExt spinReview (State.new "r1") startReview 1).result.isOk = true ∧
    entriesOf (Packtrail.decide plainExt spinReview (State.new "r1") startReview 1).events = ["ask", "back", "ask"] ∧
    CountedSteps spinReview 0 (Packtrail.decide plainExt spinReview (State.new "r1") startReview 1).events := by
  have hok : (Packtrail.decide plainExt spinReview (State.new "r1") startReview 1).result.isOk = true := by decide +kernel
  exact ⟨hok, by decide +kernel,
    (decision_ends (by decide +kernel) (Reachable.new "r1") startReview 1).2.1 _ (Outcome.result_events hok)⟩

end Packtrail
