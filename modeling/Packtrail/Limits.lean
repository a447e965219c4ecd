import Packtrail.Budget

/-
# The recursion limit

`enter` refuses to enter a node once `max_steps` nodes were entered (`decide.go:358-389`). Two places count an entry without
asking: the branches of a fan-out, which are entered one after another when the fan-out opens (`fanout`, `decide.go:837-872`),
and the join that closes it (`closeJoin`, `decide.go:921-975`). So the limit is exceeded by a fan-out that is entered too late.

**`steps_within_limit`**: in a run that opens every fan-out with room for its branches and its join (`FanRoom`), the limit holds.
`Relies` carries that assumption through the programs of the decider: between `entered` events nothing counts
(`Shrinks`), so `Clear` (no fan-out is open) is what `enter` needs and `Room` what it leaves behind.
-/

namespace Packtrail

open Replay Emitter

/-- A fan-out is opened with room for its branches and its join. -/
def FanRoom (fl : Flow) (s : State) (ev : Event) : Prop :=
  match ev.data with
  | .fanout d => s.steps + d.branches.length + 1 ≤ fl.maxStepsOrDefault
  | _ => True

/-- Within the limit, with an entry left for the join of an open fan-out. -/
structure Room (fl : Flow) (s : State) : Prop where
  steps : s.steps ≤ fl.maxStepsOrDefault
  join : ∀ k ∈ s.fans, s.steps < fl.maxStepsOrDefault

/-- Within the limit and no fan-out open. -/
structure Clear (fl : Flow) (s : State) : Prop where
  steps : s.steps ≤ fl.maxStepsOrDefault
  fans : ∀ k, k ∉ s.fans

/-- No entry and no new fan-out. -/
structure Shrinks (s s' : State) : Prop where
  steps : s'.steps = s.steps
  fans : ∀ k ∈ s'.fans, k ∈ s.fans

def Payload.calm : Payload → Bool
  | .entered _ | .fanout _ | .forked _ | .continued _ => false
  | _ => true

section
variable {fl : Flow} {s s' s'' : State} {owner : String}

theorem Shrinks.refl (s : State) : Shrinks s s := ⟨rfl, fun _ h => h⟩

theorem Shrinks.trans (h : Shrinks s s') (h' : Shrinks s' s'') : Shrinks s s'' :=
  ⟨h'.steps.trans h.steps, fun k hk => h.fans k (h'.fans k hk)⟩

theorem Room.shrinks (h : Room fl s) (hs : Shrinks s s') : Room fl s' :=
  ⟨hs.steps ▸ h.steps, fun k hk => hs.steps ▸ h.join k (hs.fans k hk)⟩

theorem Clear.shrinks (h : Clear fl s) (hs : Shrinks s s') : Clear fl s' :=
  ⟨hs.steps ▸ h.steps, fun k hk => h.fans k (hs.fans k hk)⟩

theorem Clear.room (h : Clear fl s) : Room fl s := ⟨h.steps, fun k hk => absurd hk (h.fans k)⟩

end

/-! ## What events do -/

namespace Work
section
variable {w : Work} {key owner node k : String} {o : BranchStatus}

theorem mem_settleFans (h : k ∈ w.settleFans owner node o) : k ∈ w.fans := by
  unfold settleFans at h
  split at h
  · rename_i f hf
    rcases Std.ExtTreeMap.mem_insert.1 h with he | he
    · rw [← Std.LawfulEqCmp.compare_eq_iff_eq.1 he]
      exact mem_of_get hf
    · exact he
  · exact h

theorem mem_settle_fans (h : k ∈ (w.settle key o).fans) : k ∈ w.fans := by
  unfold settle at h
  split at h
  · exact h
  · exact mem_settleFans h

theorem mem_finishTask_fans (h : k ∈ (w.finishTask key).fans) : k ∈ w.fans := by
  unfold finishTask at h
  split at h
  · exact h
  · have hfans := mem_settle_fans h
    exact hfans

theorem mem_finishChild_fans {d : Event.ChildDone} (h : k ∈ (w.finishChild d).fans) : k ∈ w.fans := by
  simp only [finishChild, settleChild] at h
  split at h
  · exact h
  · split at h
    · split at h <;> exact h
    · exact mem_settleFans h

/-- A calm event opens no fan-out. -/
theorem mem_step_fans {p : Payload} (hp : p.calm = true) (h : k ∈ (w.step p).fans) : k ∈ w.fans := by
  cases p with
  | entered d => cases hp
  | fanout d => cases hp
  | forked d => cases hp
  | continued d => cases hp
  | completed d => exact absurd h Std.ExtTreeMap.not_mem_empty
  | failed d => exact absurd h Std.ExtTreeMap.not_mem_empty
  | cancelled d => exact absurd h Std.ExtTreeMap.not_mem_empty
  | nodeDone d => exact mem_finishTask_fans h
  | nodeFail d =>
    simp only [step, setStatus] at h
    split at h
    · split at h <;> exact h
    · exact mem_settle_fans h
  | interrupted d =>
    simp only [step, setStatus] at h
    split at h <;> exact h
  | nodeCancel d => exact mem_settle_fans h
  | join d => exact (Std.ExtTreeMap.mem_erase.1 h).2
  | childDone d => exact mem_finishChild_fans h
  | _ => exact h

end
end Work

section
variable {quote : String → String} {fl : Flow} {s s' : State} {ev : Event}

theorem shrinks_of_step {p : Payload} (hp : p.calm = true) (hw : s'.work = s.work.step p) : Shrinks s s' := by
  refine ⟨?_, fun k hk => Work.mem_step_fans (w := s.work) hp (hw ▸ hk)⟩
  have hsteps : s'.steps = _ := (congrArg Work.steps hw).trans (congrArg Prod.snd (s.work.books_step p))
  cases p <;> first | exact hsteps | cases hp

theorem apply_shrinks (hp : ev.data.calm = true) (ha : s.apply quote fl ev = .ok s') : Shrinks s s' :=
  shrinks_of_step hp (State.apply_work ha)

end

/-! ## Programs -/

/-- `Relies` for the decider: the assumption is `FanRoom`, the states fit the flow. -/
def Limited {α : Type} (c : Ctx) (m : DecM α) (s : State) (p : Prop) (Q : α → State → Prop) : Prop :=
  Relies c.apply (FanRoom c.fl) (fun s => s.work.Fits c.fl) m s p Q

/-- The postcondition of every program that may enter nodes. -/
def Roomy {α : Type} (c : Ctx) (_ : α) (s : State) : Prop := Room c.fl s

section
variable {c : Ctx} {s : State} {p : Prop}

variable {α : Type} {d : Payload}

theorem Limited.nodeOf {id : String} {f : Node → DecM α} {Q : α → State → Prop}
    (h : ∀ n, c.fl.node id = some n → Limited c (f n) s p Q) : Limited c (nodeOf c id >>= f) s p Q := by
  unfold Packtrail.nodeOf
  cases hn : c.fl.node id with
  | none => exact Relies.throw _
  | some n => exact h n hn

theorem Limited.ite {b : Prop} [Decidable b] {m m' : DecM α} {Q : α → State → Prop} (hm : b → Limited c m s p Q)
    (hm' : ¬b → Limited c m' s p Q) : Limited c (if b then m else m') s p Q := by
  split
  · exact hm ‹_›
  · exact hm' ‹_›

/-- What the events of a program keep, whatever is assumed. -/
theorem Behaves.along {A : Payload → Prop} {m : DecM α} {I : State → Prop} (h : Behaves c A m s) (hI : I s)
    (hstep : ∀ {s s' ev}, I s → A ev.data → State.apply c.x.quote c.fl s ev = .ok s' → I s') :
    Limited c m s p fun _ s' => p ∧ I s' := by
  refine Relies.of_runs h fun a s' evs hpath hp => ⟨hp, ?_⟩
  exact hpath.invariant (fun _ _ _ hi hg ha => hstep hi hg.kind ha) hI

/-- A program without entries. -/
theorem Behaves.shrinks {m : DecM α} (h : Behaves c (fun p => p.calm = true) m s) :
    Limited c m s p fun _ s' => p ∧ Shrinks s s' :=
  h.along (Shrinks.refl s) fun hi hk ha => hi.trans (apply_shrinks hk ha)

/-- A program without entries at the end of one that leaves room. -/
theorem Behaves.roomy {m : DecM Unit} (h : Behaves c (fun p => p.calm = true) m s) (hp : p → Room c.fl s) :
    Limited c m s p (Roomy c) := h.shrinks.mono id fun _ _ hq => (hp hq.1).shrinks hq.2

theorem emit_entered (node : String) : Limited c (emit c (.entered { node })) s p fun _ s' =>
    p ∧ s'.steps = s.steps + 1 ∧ s'.fans = s.fans := by
  refine Relies.emit (fun s' ha hs => ?_) fun s' ha _ hp => ?_
  · rw [State.apply_work ha]
    exact ⟨hs.task, hs.fan, hs.map, hs.await, hs.child⟩
  · have hw := State.apply_work ha
    exact ⟨hp, congrArg Work.steps hw, congrArg (fun w => w.fans) hw⟩

theorem emit_step (hd : d.Due c.x c.fl s) : Limited c (emit c d) s p fun _ s' => p ∧ s'.work = s.work.step d := by
  refine Relies.emit (fun s' ha hs => ?_) fun s' ha _ hp => ⟨hp, State.apply_work ha⟩
  rw [State.apply_work ha]
  exact hs.step hd

theorem emit_calm (hc : d.calm = true) (hd : d.Due c.x c.fl s) :
    Limited c (emit c d) s p fun _ s' => p ∧ Shrinks s s' :=
  (emit_step hd).mono id fun _ _ h => ⟨h.1, shrinks_of_step hc h.2⟩

theorem emit_roomy (hc : d.calm = true) (hd : d.Due c.x c.fl s) (hp : p → Room c.fl s) :
    Limited c (emit c d) s p (Roomy c) := (emit_calm hc hd).mono id fun _ _ h => (hp h.1).shrinks h.2

theorem calm_works : ∀ p : Payload, p.works = true → p.calm = true := by
  intro p hp
  cases p <;> first | rfl | cases hp

theorem fail_roomy (hp : p → Room c.fl s) {reason msg node : String} : Limited c (fail c reason msg node) s p (Roomy c) :=
  Relies.getSt (Relies.getAux fun _ => emit_roomy rfl trivial hp)

/-- The branches of a fan-out, with room for those to come and the join. -/
theorem startBranches_roomy {fan : String} {bs : List String}
    (hbr : ∀ b ∈ bs, ∃ bn, c.fl.node b = some bn ∧ (bn.type = .task ∨ bn.type = .subflow))
    (hp : p → s.steps + bs.length + 1 ≤ c.fl.maxStepsOrDefault) : Limited c (startBranches c fan bs) s p (Roomy c) := by
  induction bs generalizing s p with
  | nil => exact Relies.pure fun h => ⟨Nat.le_of_succ_le (hp h), fun _ _ => hp h⟩
  | cons b bs ih =>
    refine Relies.bind (emit_entered b) fun _ s₁ _ => ?_
    obtain ⟨bn, hbn, hty⟩ := hbr b List.mem_cons_self
    rw [hbn]
    have hid : c.fl.node bn.id = some bn := (Flow.node_id hbn).symm ▸ hbn
    have hrest : ∀ s₂, Limited c (getSt >>= fun s => if s.status.terminal then pure () else startBranches c fan bs) s₂
        ((p ∧ s₁.steps = s.steps + 1 ∧ s₁.fans = s.fans) ∧ Shrinks s₁ s₂) (Roomy c) := by
      intro s₂
      have hroom : (p ∧ s₁.steps = s.steps + 1 ∧ s₁.fans = s.fans) ∧ Shrinks s₁ s₂ →
          s₂.steps + bs.length + 1 ≤ c.fl.maxStepsOrDefault := fun ⟨⟨h, he, _⟩, hs⟩ => by
        have hle := hp h
        rw [List.length_cons] at hle
        rw [hs.steps, he]
        omega
      refine Relies.getSt (Limited.ite (fun _ => Relies.pure fun h => ?_) fun _ => ?_)
      · have hle := hroom h
        exact ⟨by omega, fun _ _ => by omega⟩
      · exact ih (fun b' hb => hbr b' (List.mem_cons_of_mem _ hb)) hroom
    refine Limited.ite (fun hs => ?_) fun hs => ?_
    · exact Relies.bind (startChild_behaves calm_works ⟨bn, hid, by rw [hs]; rfl⟩ _ _ _ _).shrinks fun _ s₂ _ => hrest s₂
    · exact Relies.bind (schedule_behaves calm_works ⟨bn, hid, by rw [hty.resolve_right hs]; rfl⟩ _ _ _ _ _ _ _).shrinks
        fun _ s₂ _ => hrest s₂

theorem fanout_roomy (wf : WellFormed c.fl) {n : Node} (hn : c.fl.node n.id = some n) (ht : n.type = .fanout) :
    Limited c (fanout c n) s p (Roomy c) := by
  have hfan := wf.fan hn ht
  obtain ⟨jn, hjo, hjn, hjt, -⟩ := hfan.join
  have hemit : Limited c (emit c (.fanout { node := n.id, join := (c.fl.joinOf n.id).getD "", branches := n.branches })) s p
      fun _ s₁ => s₁.steps + n.branches.length + 1 ≤ c.fl.maxStepsOrDefault := by
    refine Relies.emit (fun s' ha hs => ?_) fun s' ha hroom _ => ?_
    · rw [State.apply_work ha]
      exact hs.step (x := c.x) (s := s) ⟨jn, by rw [hjo]; exact hjn, by rw [hjt]; rfl⟩
    · have hsteps : s'.steps = s.steps := congrArg Work.steps (State.apply_work ha)
      rw [hsteps]
      exact hroom
  exact Relies.bind hemit fun _ s₁ _ => startBranches_roomy hfan.branch id

end

/-! ### Entering and leaving nodes -/

section
variable {c : Ctx} {s : State} {p : Prop} {k : String → DecM Unit}
variable (hk : ∀ {id : String} {s : State} {p : Prop}, Enterable c.fl id → (p → Clear c.fl s) → Limited c (k id) s p (Roomy c))
include hk

variable {n : Node}

theorem advance_roomy {dyn : String}
    (hn : ∀ next, next = (if dyn = "" then n.next else dyn) → next ≠ "" → Enterable c.fl next) (hp : p → Clear c.fl s) :
    Limited c (advance c k n dyn) s p (Roomy c) :=
  Limited.ite (fun _ => (complete0_behaves calm_works).roomy fun h => (hp h).room) fun hne => hk (hn _ rfl hne) hp

variable (wf : WellFormed c.fl)

include wf

theorem leave_roomy (hn : c.fl.node n.id = some n) (ht : n.type ≠ .fanout)
    (hp : p → Clear c.fl s) : Limited c (advance c k n "") s p (Roomy c) := by
  refine advance_roomy hk (fun next he hne => ?_) hp
  simp only [if_true] at he
  subst he
  exact wf.next hn ht hne

theorem mapProgress_roomy (hn : c.fl.node n.id = some n) (ht : n.type = .map)
    (hp : p → Clear c.fl s) : Limited c (mapProgress c k n) s p (Roomy c) := by
  refine Relies.getSt ?_
  split
  · exact Relies.throw _
  · refine Limited.ite (fun _ => Relies.bind (emit_calm rfl trivial) fun _ s₁ _ => ?_) fun _ => ?_
    · exact leave_roomy hk wf hn (by rw [ht]; nofun) fun h => (hp h.1).shrinks h.2
    · exact (mapLoop_behaves calm_works hn ht _ _ _).roomy fun h => (hp h).room

theorem mapStart_roomy (hn : c.fl.node n.id = some n) (ht : n.type = .map)
    (hp : p → Clear c.fl s) : Limited c (mapStart c k n) s p (Roomy c) := by
  have hexpr : ∀ {msg : String}, Limited c (fail c "expression_error" msg n.id) s p (Roomy c) :=
    fail_roomy (fun h => (hp h).room)
  refine Relies.getSt ?_
  split
  · exact hexpr
  · refine Limited.ite (fun _ => hexpr) fun _ => ?_
    split
    · exact Relies.throw _
    · refine Relies.bind (emit_calm rfl ⟨n, hn, by rw [ht]; rfl⟩) fun _ s₁ _ => ?_
      exact mapProgress_roomy hk wf hn ht fun h => (hp h.1).shrinks h.2

theorem consume_roomy (hn : c.fl.node n.id = some n) (ht : n.type = .await)
    (hp : p → Clear c.fl s) : Limited c (consume c k n) s p (Roomy c) := by
  refine Relies.getSt ?_
  split
  · exact Relies.pure fun h => (hp h).room
  · rename_i b hb
    have hname : b.name = n.signal := by simpa using List.find?_some hb
    refine Relies.bind (emit_calm rfl ⟨b, n, ?_, rfl, hn, hname.symm⟩) fun _ s₁ _ => ?_
    · rw [← hname] at hb
      exact hb
    · exact leave_roomy hk wf hn (by rw [ht]; nofun) fun h => (hp h.1).shrinks h.2

theorem await_roomy (hn : c.fl.node n.id = some n) (ht : n.type = .await)
    (hp : p → Clear c.fl s) : Limited c (await c k n) s p (Roomy c) := by
  refine Relies.getSt (Relies.bind (emit_calm rfl ⟨n, hn, by rw [ht]; rfl⟩) fun _ s₁ _ => ?_)
  refine Relies.bind (emit_calm rfl trivial) fun _ s₂ _ => consume_roomy hk wf hn ht fun h => ?_
  exact (hp h.1.1).shrinks (h.1.2.trans h.2)

theorem choose_roomy (hn : c.fl.node n.id = some n) (hp : p → Clear c.fl s) :
    Limited c (choose c k n) s p (Roomy c) := by
  refine Relies.getSt ?_
  obtain ⟨hrule, hfail⟩ := pickRule_index c.x n (s.env none) 0 n.rules none
  split
  · rename_i i r hr
    have hget : n.rules[i]? = some r := by simpa using (hrule i r hr).resolve_right (by simp)
    refine Relies.bind (emit_calm rfl ⟨n, r, hn, hget, rfl, .inl rfl⟩) fun _ s₁ _ => Limited.ite (fun _ => ?_) fun hend => ?_
    · exact (complete0_behaves calm_works).roomy fun h => ((hp h.1).shrinks h.2).room
    · exact hk (wf.rule hn (List.mem_of_getElem? hget) hend) fun h => (hp h.1).shrinks h.2
  · rename_i i r err hr
    have hget : n.rules[i]? = some r := by simpa using hfail i r err hr
    refine Relies.bind (emit_calm rfl ⟨n, r, hn, hget, rfl, .inr rfl⟩) fun _ s₁ _ => ?_
    exact fail_roomy (fun h => ((hp h.1).shrinks h.2).room)
  · exact Relies.throw _

theorem enterStep_roomy {id : String} (he : Enterable c.fl id) (hp : p → Clear c.fl s) :
    Limited c (enterStep c k id) s p (Roomy c) := by
  obtain ⟨n, hn, hty⟩ := he
  have hid : c.fl.node n.id = some n := (Flow.node_id hn).symm ▸ hn
  refine Relies.getSt ?_
  rw [hn]
  refine Limited.ite (fun _ => fail_roomy (fun h => (hp h).room)) fun hlimit => ?_
  refine Relies.bind (emit_entered id) fun _ s₁ _ => ?_
  have hclear : (p ∧ s₁.steps = s.steps + 1 ∧ s₁.fans = s.fans) → Clear c.fl s₁ := fun ⟨h, he, hf⟩ =>
    ⟨by omega, fun k => hf ▸ (hp h).fans k⟩
  cases ht : n.type with
  | task => exact (schedule_behaves calm_works ⟨n, hid, by rw [ht]; rfl⟩ _ _ _ _ _ _ _).roomy fun h => (hclear h).room
  | choice => exact choose_roomy hk wf hid hclear
  | fanout => exact fanout_roomy wf hid ht
  | await => exact await_roomy hk wf hid ht hclear
  | map => exact mapStart_roomy hk wf hid ht hclear
  | subflow => exact (startChild_behaves calm_works ⟨n, hid, by rw [ht]; rfl⟩ _ _ _ _).roomy fun h => (hclear h).room
  | join => rw [ht] at hty; cases hty
  | unknown t => rw [ht] at hty; cases hty

end

section
variable {c : Ctx} {s : State} {p : Prop} (wf : WellFormed c.fl)
include wf

theorem enter_roomy {id : String} (he : Enterable c.fl id) (hp : p → Clear c.fl s) : Limited c (enter c id) s p (Roomy c) := by
  have hfuel : ∀ f {id s p}, Enterable c.fl id → (p → Clear c.fl s) → Limited c (enterFuel c f id) s p (Roomy c) := by
    intro f
    induction f with
    | zero => exact fun he hp => enterStep_roomy (fun _ _ => Relies.throw _) wf he hp
    | succ f ih => exact fun he hp => enterStep_roomy ih wf he hp
  exact Relies.getSt (hfuel _ he hp)

omit wf in
theorem emit_join (d : Event.Join) : Limited c (emit c (.join d)) s p fun _ s' =>
    p ∧ s'.steps = s.steps ∧ ∀ k ∈ s'.fans, k ∈ s.fans ∧ k ≠ d.fanout := by
  refine Relies.emit (fun s' ha hs => ?_) fun s' ha _ hp => ⟨hp, (apply_shrinks rfl ha).steps, fun k hk => ?_⟩
  · rw [State.apply_work ha]
    exact hs.step (x := c.x) (s := s) trivial
  · have hw : s'.fans = s.fans.erase d.fanout := congrArg (fun w => w.fans) (State.apply_work ha)
    rw [hw, Std.ExtTreeMap.mem_erase] at hk
    exact ⟨hk.2, fun he => hk.1 (he ▸ Std.ReflCmp.compare_self)⟩

/-! ### Settling -/

theorem closeJoin_roomy {join : Node} (hj : c.fl.node join.id = some join) (ht : join.type = .join) (fan : String)
    (succeeded failed : List String) (ok : Bool) (hp : p → s.steps < c.fl.maxStepsOrDefault ∧ ∀ k ∈ s.fans, k = fan) :
    Limited c (closeJoin c fan join succeeded failed ok) s p (Roomy c) := by
  refine Relies.getSt (Relies.bind (cancelTasks_behaves calm_works _ _ _).shrinks fun _ s₁ _ => Relies.getSt ?_)
  refine Relies.bind (emit_entered join.id) fun _ s₂ _ => Relies.bind (emit_join _) fun _ s₃ _ => ?_
  have hclear : ((((p ∧ Shrinks s s₁) ∧ s₂.steps = s₁.steps + 1 ∧ s₂.fans = s₁.fans) ∧ s₃.steps = s₂.steps ∧
      ∀ k ∈ s₃.fans, k ∈ s₂.fans ∧ k ≠ fan)) → Clear c.fl s₃ := by
    rintro ⟨⟨⟨h, hs⟩, he, hf⟩, hsame, hfans⟩
    obtain ⟨hlt, honly⟩ := hp h
    refine ⟨?_, fun k hk => ?_⟩
    · have := hs.steps
      omega
    · obtain ⟨hk₂, hne⟩ := hfans k hk
      exact hne (honly k (hs.fans k (hf ▸ hk₂)))
  refine Limited.ite (fun _ => leave_roomy (enter_roomy wf) wf hj (by rw [ht]; nofun) hclear) fun _ => ?_
  refine Limited.ite (fun hne => enter_roomy wf (wf.onFailure hj hne) hclear) fun _ => ?_
  exact fail_roomy (fun h => (hclear h).room)

/-- The join of an open fan-out, when it is the only one. -/
theorem evalJoin_roomy (fan : String) (hp : p → Room c.fl s ∧ ∀ k ∈ s.fans, k = fan) :
    Limited c (evalJoin c fan) s p (Roomy c) := by
  intro hs
  refine (?_ : Limited c (evalJoin c fan) s p (Roomy c)) hs
  refine Relies.getSt ?_
  split
  · exact Relies.throw _
  · rename_i f hf
    split
    · exact Relies.throw _
    · rename_i join hj
      obtain ⟨jn, hjn, hjt⟩ := hs.fan hf
      obtain rfl : jn = join := Option.some.inj (hjn.symm.trans hj)
      have hid : c.fl.node jn.id = some jn := (Flow.node_id hj).symm ▸ hj
      simp only
      split
      · exact Relies.pure fun h => (hp h).1
      · refine closeJoin_roomy wf hid (by simpa [NodeType.isJoin] using hjt) _ _ _ _ fun h => ?_
        exact ⟨(hp h).1.join fan (mem_of_get hf), (hp h).2⟩

theorem abortMap_roomy {n : Node} (hn : c.fl.node n.id = some n) (hf : n.onFailure ≠ "") (index : Nat) (hp : p → Clear c.fl s) :
    Limited c (abortMap c n index) s p (Roomy c) := by
  refine Relies.getSt (Relies.bind (cancelTasks_behaves calm_works _ _ _).shrinks fun _ s₁ _ => Relies.getSt ?_)
  refine Relies.bind (emit_calm rfl trivial) fun _ s₂ _ => enter_roomy wf (wf.onFailure hn hf) fun h => ?_
  exact (hp h.1.1).shrinks (h.1.2.trans h.2)

omit wf in
/-- No fan-out is open when the only one there may be is not. -/
theorem Room.clear {owner : String} (h : Room c.fl s) (honly : ∀ k ∈ s.fans, k = owner) (hno : ¬ (s.fans[owner]?).isSome = true) :
    Clear c.fl s := by
  refine ⟨h.steps, fun k hk => hno ?_⟩
  obtain ⟨f, hf⟩ := get_of_mem (honly k hk ▸ hk)
  simp [hf]

theorem afterSettle_roomy {t : Task} {n : Node} {dyn : String} (hn : c.fl.node t.node = some n) (ht : n.type.runs = true)
    (hd : dyn ≠ "" → Enterable c.fl dyn) (hp : p → Room c.fl s ∧ ∀ k ∈ s.fans, k = t.owner) :
    Limited c (afterSettle c t n dyn) s p (Roomy c) := by
  have hid : n.id = t.node := Flow.node_id hn
  have hself : c.fl.node n.id = some n := hid.symm ▸ hn
  intro hs
  refine (?_ : Limited c (afterSettle c t n dyn) s p (Roomy c)) hs
  refine Relies.getSt (Limited.ite (fun _ => Relies.pure fun h => (hp h).1) fun _ => ?_)
  refine Limited.ite (fun _ => evalJoin_roomy wf _ hp) fun hno => ?_
  have hclear : p → Clear c.fl s := fun h => (hp h).1.clear (hp h).2 hno
  refine Limited.ite (fun hm => ?_) fun _ => ?_
  · rw [← hm.2, ← hid] at hm
    exact mapProgress_roomy (enter_roomy wf) wf hself (hs.of_map hself hm.1) hclear
  · refine advance_roomy (enter_roomy wf) (fun next he hne => ?_) hclear
    split at he
    · exact he ▸ wf.next hn (fun hf => by rw [hf] at ht; cases ht) (he ▸ hne)
    · exact he ▸ hd ‹_›

theorem taskFailed_roomy {t : Task} (ht : c.fl.Has NodeType.runs t.node) (msg : String) (retryable : Bool) (reason : String)
    (usage : SMap Rat) (hp : p → Room c.fl s ∧ ∀ k ∈ s.fans, k = t.owner) :
    Limited c (taskFailed c t msg retryable reason usage) s p (Roomy c) := by
  refine Limited.nodeOf fun n hn => Relies.getSt (Relies.bind (emit_calm rfl trivial) fun _ s₁ _ => ?_)
  have hid : n.id = t.node := Flow.node_id hn
  have hroom : p ∧ Shrinks s s₁ → Room c.fl s₁ ∧ ∀ k ∈ s₁.fans, k = t.owner := fun ⟨h, hs⟩ =>
    ⟨(hp h).1.shrinks hs, fun k hk => (hp h).2 k (hs.fans k hk)⟩
  split
  · exact fail_roomy (fun h => (hroom h).1)
  · refine Limited.ite (fun _ => ?_) fun _ => Relies.getSt (Limited.ite (fun _ => evalJoin_roomy wf _ hroom) fun hno => ?_)
    · refine Limited.ite (fun _ => ?_) fun _ => (timerAt_behaves calm_works _ _ _ _ _ _).roomy fun h => (hroom h).1
      exact (schedule_behaves calm_works (hid.symm ▸ ht) _ _ _ _ _ _ _).roomy fun h => (hroom h).1
    · have hclear : p ∧ Shrinks s s₁ → Clear c.fl s₁ := fun h => (hroom h).1.clear (hroom h).2 hno
      refine Limited.ite (fun hne => ?_) fun _ => fail_roomy fun h => (hroom h).1
      refine Limited.ite (fun _ => abortMap_roomy wf (hid.symm ▸ hn) hne _ hclear) fun _ => ?_
      exact enter_roomy wf (wf.onFailure hn hne) hclear

theorem afterChild_roomy (hs : s.work.Fits c.fl) {ch : ChildState} (hhas : c.fl.Has NodeType.delegates ch.node) (ok : Bool)
    (itemFailed failed : String) (hp : p → Room c.fl s ∧ ∀ k ∈ s.fans, k = ch.owner) :
    Limited c (nodeOf c ch.node >>= fun n =>
      if (s.fans[ch.owner]?).isSome then evalJoin c ch.owner
      else if (s.maps[ch.owner]?).isSome ∧ ch.owner = ch.node then
        if ok then mapProgress c (enter c) n
        else if n.onFailure ≠ "" then abortMap c n ch.index
        else fail c "child_failed" itemFailed ch.node
      else if ok then advance c (enter c) n ""
      else if n.onFailure ≠ "" then enter c n.onFailure
      else fail c "child_failed" failed ch.node) s p (Roomy c) := by
  refine Limited.nodeOf fun n hn => ?_
  have hid : n.id = ch.node := Flow.node_id hn
  have hself : c.fl.node n.id = some n := hid.symm ▸ hn
  have hty : n.type ≠ .fanout := fun hf => by
    have := hhas.type hn
    rw [hf] at this
    cases this
  have hfail : ∀ {msg : String}, Limited c (fail c "child_failed" msg ch.node) s p (Roomy c) :=
    fail_roomy (fun h => (hp h).1)
  refine Limited.ite (fun _ => evalJoin_roomy wf _ hp) fun hno => ?_
  have hclear : p → Clear c.fl s := fun h => (hp h).1.clear (hp h).2 hno
  refine Limited.ite (fun hm => ?_) fun _ => ?_
  · rw [hm.2, ← hid] at hm
    refine Limited.ite (fun _ => mapProgress_roomy (enter_roomy wf) wf hself (hs.of_map hself hm.1) hclear) fun _ => ?_
    exact Limited.ite (fun hne => abortMap_roomy wf hself hne _ hclear) fun _ => hfail
  · refine Limited.ite (fun _ => leave_roomy (enter_roomy wf) wf hself hty hclear) fun _ => ?_
    exact Limited.ite (fun hne => enter_roomy wf (wf.onFailure hn hne) hclear) fun _ => hfail

end

/-! ## Commands -/

/-- Who owns what between decisions, as far as entering nodes goes: an open fan-out owns every task and every child, and no
await is open beside it. -/
structure Work.Orderly (w : Work) : Prop where
  task : ∀ {k : String} {t}, w.tasks[k]? = some t → ∀ fan ∈ w.fans, fan = t.owner
  child : ∀ {k : String} {ch}, w.children[k]? = some ch → ∀ fan ∈ w.fans, fan = ch.owner
  await : ∀ {k : String}, k ∈ w.awaits → ∀ fan, fan ∉ w.fans
  one : w.awaits.keys.length ≤ 1

theorem ready_of_work {fl : Flow} {s s' : State} {w : Work} (hw : s'.work = w)
    (hsame : w.steps = s.work.steps ∧ w.fans = s.work.fans ∧ w.tasks = s.work.tasks ∧ w.children = s.work.children ∧
      w.awaits = s.work.awaits)
    (h : Room fl s ∧ s.work.Orderly) : Room fl s' ∧ s'.work.Orderly := by
  subst hw
  obtain ⟨hsteps, hfans, htasks, hchildren, hawaits⟩ := hsame
  obtain ⟨hr, ho⟩ := h
  have hshrinks : Shrinks s s' := ⟨hsteps, fun k hk => show k ∈ s.work.fans from hfans ▸ hk⟩
  refine ⟨hr.shrinks hshrinks, ⟨?_, ?_, ?_, ?_⟩⟩
  · rw [htasks, hfans]
    exact ho.task
  · rw [hchildren, hfans]
    exact ho.child
  · rw [hawaits, hfans]
    exact ho.await
  · rw [hawaits]
    exact ho.one

section
variable {c : Ctx} {s : State} {p : Prop} (wf : WellFormed c.fl)

theorem current_roomy {ref : Cmd.TaskRef} {f : Task → DecM Unit} (hp : p → Room c.fl s ∧ s.work.Orderly)
    (h : ∀ {t : Task}, c.fl.Has NodeType.runs t.node → (p → Room c.fl s ∧ ∀ k ∈ s.fans, k = t.owner) → Limited c (f t) s p (Roomy c)) :
    Limited c (match current s ref with | none => pure () | some t => f t) s p (Roomy c) := by
  intro hs
  cases hc : current s ref with
  | none =>
    have hpure : Limited c (pure ()) s p (Roomy c) := Relies.pure fun hp' => (hp hp').1
    exact hpure hs
  | some t =>
    have ht := (current_some hc).1
    exact h (hs.task ht) (fun hp' => ⟨(hp hp').1, (hp hp').2.task ht⟩) hs

include wf

theorem complete_roomy (d : Cmd.CompleteData) (hp : p → Room c.fl s ∧ s.work.Orderly) : Limited c (complete c d) s p (Roomy c) := by
  refine Relies.getSt (current_roomy hp fun {t} ht hpt => Limited.nodeOf fun n hn => ?_)
  simp only
  split
  · exact taskFailed_roomy wf ht _ _ _ _ hpt
  · rename_i hcheck
    obtain ⟨u, hw, hdyn⟩ := checkCompletion_none hcheck
    refine Relies.bind (emit_calm rfl hw) fun _ s₁ _ => Relies.getSt ?_
    split
    · exact fail_roomy (fun h => (hpt h.1).1.shrinks h.2)
    · refine afterSettle_roomy wf hn (ht.type hn) (fun hne => ?_) fun h => ?_
      · exact wf.dynamic hn (by simpa [Node.allowsDynamic] using (hdyn hne).2)
      · exact ⟨(hpt h.1).1.shrinks h.2, fun k hk => (hpt h.1).2 k (h.2.fans k hk)⟩

omit wf in
theorem interrupt_roomy (d : Cmd.InterruptData) (hp : p → Room c.fl s ∧ s.work.Orderly) : Limited c (interrupt c d) s p (Roomy c) := by
  refine Relies.getSt (current_roomy hp fun _ _ => Relies.bind (emit_calm rfl trivial) fun _ s₁ _ => Relies.getSt ?_)
  split
  · exact fail_roomy (fun h => (hp h.1).1.shrinks h.2)
  · exact Relies.pure fun h => (hp h.1).1.shrinks h.2

omit wf in
theorem resume_roomy (d : Cmd.ResumeData) (hp : p → Room c.fl s ∧ s.work.Orderly) : Limited c (resume c d) s p (Roomy c) := by
  intro hs
  refine (?_ : Limited c (resume c d) s p (Roomy c)) hs
  refine Relies.getSt ?_
  split
  · exact Relies.pure fun h => (hp h).1
  · rename_i key t hfind
    have hget : s.tasks[key]? = some t := Std.ExtTreeMap.mem_toList_iff_getElem?_eq_some.1 (List.mem_of_find?_eq_some hfind)
    refine Limited.nodeOf fun n hn => ?_
    exact (schedule_behaves calm_works ((Flow.node_id hn).symm ▸ hs.task hget) _ _ _ _ _ _ _).roomy fun h => (hp h).1

theorem signal_roomy (d : Cmd.SignalData) (hp : p → Room c.fl s ∧ s.work.Orderly) : Limited c (signal c d) s p (Roomy c) := by
  unfold signal
  split
  · exact Relies.throw _
  · refine Relies.getSt (Limited.ite (fun _ => Relies.pure fun h => (hp h).1) fun _ => ?_)
    refine Relies.bind (emit_step trivial) fun _ s₁ hs₁ => Relies.getSt ?_
    have hroom : ∀ {e}, p ∧ s₁.work = s.work.step (.signal e) → Room c.fl s₁ ∧ s₁.work.Orderly := fun ⟨h, hw⟩ =>
      ready_of_work hw ⟨rfl, rfl, rfl, rfl, rfl⟩ (hp h)
    split
    · exact Relies.pure fun h => (hroom h).1
    · rename_i node a hfind
      have hget : s₁.awaits[node]? = some a :=
        Std.ExtTreeMap.mem_toList_iff_getElem?_eq_some.1 (List.mem_of_find?_eq_some hfind)
      refine Limited.nodeOf fun n hn => consume_roomy (enter_roomy wf) wf ((Flow.node_id hn).symm ▸ hn) ?_ fun h => ?_
      · simpa [NodeType.isAwait] using (hs₁.await hget).type hn
      · exact ⟨(hroom h).1.steps, (hroom h).2.await (mem_of_get hget)⟩

theorem awaitTimeout_roomy (tm : Timer) (hp : p → Room c.fl s ∧ s.work.Orderly) : Limited c (awaitTimeout c tm) s p (Roomy c) := by
  refine Relies.getSt ?_
  split
  · exact Relies.pure fun h => (hp h).1
  · rename_i a hget
    refine Limited.ite (fun _ => Limited.nodeOf fun n hn => ?_) fun _ => Relies.pure fun h => (hp h).1
    refine Relies.bind (emit_calm rfl trivial) fun _ s₁ _ => ?_
    have hclear : p ∧ Shrinks s s₁ → Clear c.fl s₁ := fun h =>
      Clear.shrinks ⟨(hp h.1).1.steps, (hp h.1).2.await (mem_of_get hget)⟩ h.2
    refine Limited.ite (fun _ => fail_roomy (fun h => (hclear h).room)) fun hne => ?_
    exact enter_roomy wf (wf.onTimeout hn hne) hclear

theorem timer_roomy (d : Cmd.TimerData) (hp : p → Room c.fl s ∧ s.work.Orderly) : Limited c (timer c d) s p (Roomy c) := by
  refine Relies.getSt ?_
  split
  · exact Relies.pure fun h => (hp h).1
  · rename_i tm _
    refine Relies.bind (emit_step trivial) fun _ s₁ hs₁ => Relies.getSt ?_
    have hroom : p ∧ s₁.work = s.work.step (.fired { id := tm.id }) → Room c.fl s₁ ∧ s₁.work.Orderly := fun ⟨h, hw⟩ =>
      ready_of_work hw ⟨rfl, rfl, rfl, rfl, rfl⟩ (hp h)
    split
    · split
      · exact Relies.pure fun h => (hroom h).1
      · rename_i t ht
        refine Limited.ite (fun _ => Limited.nodeOf fun n hn => ?_) fun _ => Relies.pure fun h => (hroom h).1
        exact (schedule_behaves calm_works ((Flow.node_id hn).symm ▸ hs₁.task ht) _ _ _ _ _ _ _).roomy fun h => (hroom h).1
    · exact current_roomy hroom fun ht hpt => taskFailed_roomy wf ht _ _ _ _ hpt
    · exact awaitTimeout_roomy wf _ hroom

theorem childDone_roomy (d : Cmd.ChildDoneData) (hp : p → Room c.fl s ∧ s.work.Orderly) : Limited c (childDone c d) s p (Roomy c) := by
  intro hs
  refine (?_ : Limited c (childDone c d) s p (Roomy c)) hs
  refine Relies.getSt ?_
  split
  · exact Relies.pure fun h => (hp h).1
  · rename_i key ch hfind
    have hget := child_of_find hfind
    have hhas := hs.child hget
    rw [hhas.nodeOf wf]
    refine Relies.bind (emit_calm rfl trivial) fun _ s₁ hs₁ => Relies.getSt ?_
    have hroom : p ∧ Shrinks s s₁ → Room c.fl s₁ ∧ ∀ k ∈ s₁.fans, k = ch.owner := fun ⟨h, hs⟩ =>
      ⟨(hp h).1.shrinks hs, fun k hk => (hp h).2.child hget k (hs.fans k hk)⟩
    split
    · exact fail_roomy (fun h => (hroom h).1)
    · exact afterChild_roomy wf hs₁ hhas _ _ _ hroom

theorem start_roomy (d : Cmd.StartData) (hp : p → Room c.fl s ∧ s.work.Orderly) (hnew : p → s.exists = false → Clear c.fl s) :
    Limited c (start c d) s p (Roomy c) := by
  refine Relies.getSt (Limited.ite (fun _ => ?_) fun hex => Limited.ite (fun _ => ?_) fun _ => Relies.throw _)
  · split
    · exact Relies.pure fun h => (hp h).1
    · exact Relies.throw _
  · split
    · exact Relies.throw _
    · refine Relies.bind (emit_calm rfl trivial) fun _ s₁ _ => enter_roomy wf wf.start fun h => ?_
      exact (hnew h.1 (by simpa using hex)).shrinks h.2

/-- **Every command leaves room.** -/
theorem decideData_roomy (d : CmdData) (hp : p → Room c.fl s ∧ s.work.Orderly) (hnew : p → s.exists = false → Clear c.fl s) :
    Limited c (decideData c d) s p (Roomy c) := by
  have hroom : p → Room c.fl s := fun h => (hp h).1
  cases d with
  | start d => exact start_roomy wf d hp hnew
  | complete d => exact complete_roomy wf d hp
  | fail d => exact Relies.getSt (current_roomy hp fun ht hpt => taskFailed_roomy wf ht _ _ _ _ hpt)
  | interrupt d => exact interrupt_roomy d hp
  | resume d => exact resume_roomy d hp
  | signal d => exact signal_roomy wf d hp
  | cancel d =>
    refine Relies.getSt (Relies.getAux fun _ => ?_)
    exact emit_roomy rfl trivial hroom
  | timer d => exact timer_roomy wf d hp
  | childDone d => exact childDone_roomy wf d hp
  | update writes =>
    refine Relies.getSt (Limited.ite (fun _ => Relies.throw _) fun _ => Limited.ite (fun _ => Relies.pure hroom) fun _ => ?_)
    split
    · exact Relies.throw _
    · rename_i u hw
      exact emit_roomy rfl hw hroom
  | undecodable t e => exact Relies.throw _
  | operational t => exact Relies.throw _

end

/-! ### Forks -/

/-- Between the same entries, fan-outs and awaits. -/
structure SameRoom (s s' : State) : Prop where
  steps : s'.steps = s.steps
  fans : s'.fans = s.fans
  awaits : s'.awaits = s.awaits

theorem SameRoom.refl (s : State) : SameRoom s s := ⟨rfl, rfl, rfl⟩

theorem SameRoom.trans {s s' s'' : State} (h : SameRoom s s') (h' : SameRoom s' s'') : SameRoom s s'' :=
  ⟨h'.steps.trans h.steps, h'.fans.trans h.fans, h'.awaits.trans h.awaits⟩

theorem SameRoom.shrinks {s s' : State} (h : SameRoom s s') : Shrinks s s' := ⟨h.steps, fun _ hk => h.fans ▸ hk⟩

def Payload.handsOut : Payload → Bool
  | .scheduled _ | .timer _ => true
  | _ => false

theorem apply_sameRoom {quote : String → String} {fl : Flow} {s s' : State} {ev : Event} (hp : ev.data.handsOut = true)
    (ha : s.apply quote fl ev = .ok s') : SameRoom s s' := by
  have hw := State.apply_work ha
  cases hd : ev.data <;> rw [hd] at hp hw <;>
    first | exact ⟨congrArg Work.steps hw, congrArg (fun w => w.fans) hw, congrArg (fun w => w.awaits) hw⟩ | cases hp

section
variable {c : Ctx} {s : State} {p : Prop}

theorem rekickTasks_sameRoom (keys : List String) : Limited c (rekickTasks c keys) s p fun _ s' => p ∧ SameRoom s s' := by
  induction keys generalizing s p with
  | nil => exact Relies.pure fun h => ⟨h, .refl s⟩
  | cons key keys ih =>
    intro hs
    refine (?_ : Limited c (rekickTasks c (key :: keys)) s p fun _ s' => p ∧ SameRoom s s') hs
    unfold rekickTasks
    refine Relies.getSt ?_
    split
    · exact Relies.throw _
    · rename_i t ht
      refine Limited.ite (fun _ => ih) fun _ => Limited.nodeOf fun n hn => ?_
      have hsched : Behaves c (fun p => p.handsOut = true) (schedule c n t.key t.owner t.index t.item t.resumption 0 1) s := by
        refine .getSt fun hs => .bind (.emit rfl ((Flow.node_id hn).symm ▸ hs.task ht) trivial) fun _ s' => ?_
        exact .ite (fun _ => .getSt fun _ => .emit rfl trivial trivial) fun _ => .pure _
      have hsame : Limited c (schedule c n t.key t.owner t.index t.item t.resumption 0 1) s p fun _ s' => p ∧ SameRoom s s' :=
        hsched.along (SameRoom.refl s) fun hi hk ha => hi.trans (apply_sameRoom hk ha)
      exact Relies.bind hsame fun _ s₁ _ => ih.mono id fun _ _ h => ⟨h.1.1, h.1.2.trans h.2⟩

/-- Asking again for the one await there may be. -/
theorem rekickAwaits_roomy (wf : WellFormed c.fl) {nodes : List String} (hnodes : ∀ node ∈ nodes, c.fl.Has NodeType.isAwait node)
    (hp : p → Room c.fl s ∧ nodes.length ≤ 1 ∧ (nodes ≠ [] → Clear c.fl s)) : Limited c (rekickAwaits c nodes) s p (Roomy c) := by
  induction nodes generalizing s p with
  | nil => exact Relies.pure fun h => (hp h).1
  | cons node nodes ih =>
    refine Limited.nodeOf fun n hn => Relies.bind (Relies.frame (await_roomy (enter_roomy wf) wf ((Flow.node_id hn).symm ▸ hn) ?_
      fun h => (hp h).2.2 (List.cons_ne_nil _ _))) fun _ s₁ _ => ih (fun node hm => hnodes node (List.mem_cons_of_mem _ hm)) ?_
    · simpa [NodeType.isAwait] using (hnodes node List.mem_cons_self).type hn
    · rintro ⟨h, hroom⟩
      have hone := (hp h).2.1
      obtain rfl : nodes = [] := List.eq_nil_of_length_eq_zero (by simp at hone; exact hone ▸ rfl)
      exact ⟨hroom, by simp, fun hne => absurd rfl hne⟩

theorem rekickChildren_roomy (wf : WellFormed c.fl) (keys : List String) (hp : p → Room c.fl s) :
    Limited c (rekickChildren c keys) s p (Roomy c) := by
  induction keys generalizing s p with
  | nil => exact Relies.pure hp
  | cons key keys ih =>
    intro hs
    refine (?_ : Limited c (rekickChildren c (key :: keys)) s p (Roomy c)) hs
    unfold rekickChildren
    refine Relies.getSt (Limited.ite (fun _ => Relies.pure hp) fun _ => ?_)
    split
    · exact Relies.throw _
    · rename_i ch hch
      have hhas := hs.child hch
      rw [hhas.nodeOf wf]
      refine Limited.nodeOf fun n hn => ?_
      have hchild := startChild_behaves (c := c) (s := s) calm_works ((Flow.node_id hn).symm ▸ hhas) key ch.owner ch.index
      exact Relies.bind ((hchild _).roomy hp) fun _ s₁ _ => ih id

theorem rekick_roomy (wf : WellFormed c.fl) (hp : p → Room c.fl s ∧ s.work.Orderly) : Limited c (rekick c) s p (Roomy c) := by
  refine Relies.getSt (Relies.bind (rekickTasks_sameRoom _) fun _ s₁ hs₁ => Relies.getSt ?_)
  refine Relies.bind (rekickAwaits_roomy wf (fun node hm => ?_) fun ⟨h, hs⟩ => ⟨(hp h).1.shrinks hs.shrinks, ?_, fun hne => ?_⟩)
    fun _ s₂ _ => Relies.getSt (Relies.setAux (rekickChildren_roomy wf _ id))
  · obtain ⟨a, ha⟩ := get_of_mem (Std.ExtTreeMap.mem_keys.1 hm)
    exact hs₁.await ha
  · rw [hs.awaits]
    exact (hp h).2.one
  · obtain ⟨k, hk⟩ := List.exists_mem_of_ne_nil _ hne
    rw [hs.awaits] at hk
    exact Clear.shrinks ⟨(hp h).1.steps, (hp h).2.await (Std.ExtTreeMap.mem_keys.1 hk)⟩ hs.shrinks

theorem forkProg_roomy (wf : WellFormed c.fl) {src : State} (hsrc : src.work.Fits c.fl) (source : String) (seq : Nat)
    (writes : SMap Json) (hp : p → Room c.fl src ∧ src.work.Orderly) :
    Limited c (forkProg c src source seq writes) s p (Roomy c) := by
  have hwork : (unmarshal src.marshal).work = src.work := State.work_encoded src
  refine Relies.getSt (Relies.bind (emit_step (show (unmarshal src.marshal).work.Fits c.fl by rw [hwork]; exact hsrc))
    fun _ s₁ _ => Relies.getSt ?_)
  have hroom : ∀ {d : Event.Forked}, d.state = src.marshal → p ∧ s₁.work = s.work.step (.forked d) →
      Room c.fl s₁ ∧ s₁.work.Orderly := by
    rintro d hd ⟨h, hw⟩
    have hw₁ : s₁.work = { src.work with timers := ∅ } := by
      rw [hw, ← hwork, ← hd]
      rfl
    exact ready_of_work hw₁ ⟨rfl, rfl, rfl, rfl, rfl⟩ (hp h)
  refine Limited.ite (fun _ => Limited.ite (fun _ => Relies.pure fun h => (hroom rfl h).1) fun _ => rekick_roomy wf (hroom rfl)) fun _ =>
    Limited.ite (fun _ => Relies.throw _) fun _ => ?_
  split
  · exact Relies.throw _
  · rename_i u hw
    refine Relies.bind (emit_step hw) fun _ s₂ _ => rekick_roomy wf fun ⟨h, hw₂⟩ => ?_
    exact ready_of_work hw₂ ⟨rfl, rfl, rfl, rfl, rfl⟩ (hroom rfl h)

/-! ### Beginnings -/

theorem emit_begins {d : Payload} (hb : d.begins = true) (hd : d.Due c.x c.fl s) (hf : d.ForkOf fun src => Room c.fl src)
    (hp : p → Room c.fl s) : Limited c (emit c d) s p (Roomy c) := by
  cases d with
  | started d => exact emit_roomy rfl hd hp
  | forked d =>
    obtain ⟨src, hsrc, hstate⟩ := hf
    refine (emit_step hd).mono id fun _ s' ⟨_, hw⟩ => ?_
    have hwork : s'.work = { src.work with timers := ∅ } := by
      rw [hw, ← State.work_encoded src, show src.encoded = unmarshal d.state by rw [hstate]; rfl]
      rfl
    exact hsrc.shrinks ⟨congrArg Work.steps hwork, fun k hk => show k ∈ src.work.fans from congrArg (fun w => w.fans) hwork ▸ hk⟩
  | _ => cases hb

theorem abortProg_roomy {first : Option Event} (hfirst : ∀ ev, first = some ev →
      ev.data.begins = true ∧ ev.data.Due c.x c.fl s ∧ ev.data.ForkOf fun src => Room c.fl src)
    (reason msg : String) (hp : p → Room c.fl s) : Limited c (abortProg c first reason msg) s p (Roomy c) := by
  refine Relies.getSt (Limited.ite (fun _ => Limited.ite (fun _ => Relies.pure hp) fun _ => fail_roomy hp) fun _ => ?_)
  split
  · exact Relies.throw _
  · rename_i ev
    obtain ⟨hb, hd, hf⟩ := hfirst ev rfl
    refine Relies.bind (emit_begins hb hd hf hp) fun _ s₁ _ => Relies.getSt ?_
    exact Limited.ite (fun _ => Relies.pure id) fun _ => fail_roomy id

theorem emit_continued {d : Event.Continued} (hwork : (unmarshal d.state).work = s.work) (hs : s.work.Fits c.fl) (hp : p → Room c.fl s) :
    Limited c (emit c (.continued d)) s p (Roomy c) := by
  have hdue : (Payload.continued d).Due c.x c.fl s := show (unmarshal d.state).work.Fits c.fl by rw [hwork]; exact hs
  refine (emit_step hdue).mono id fun _ s' ⟨h, hw⟩ => ?_
  have hsame : s'.work = s.work := hw.trans hwork
  exact (hp h).shrinks ⟨congrArg Work.steps hsame, fun k hk => show k ∈ s.work.fans from congrArg (fun w => w.fans) hsame ▸ hk⟩

end

/-! ## Whole runs -/

/-- Reachable by steps whose events all meet `C`; the runs of fork sources are such runs too. -/
inductive ReachableUnder (x : Ext) (fl : Flow) (C : State → Event → Prop) : State → List (List Event) → Prop
  | new (execID : String) : ReachableUnder x fl C (State.new execID) []
  | step {s : State} {log slog : List (List Event)} {evs : List Event} (req : Request) (now : Time)
      (h : ReachableUnder x fl C s log) (hsrc : ∀ src, req.source = some src → ReachableUnder x fl C src slog)
      (hex : ∀ src, req.source = some src → src.exists = true)
      (hok : (req.perform x fl s now).result = .ok evs)
      (hC : Throughout (State.apply x.quote fl) C s evs) :
      ReachableUnder x fl C (req.perform x fl s now).state (record log evs)
  | reload {s s' : State} {log : List (List Event)} (h : ReachableUnder x fl C s log) (ha : s.Alike s') :
      ReachableUnder x fl C s' log

section
variable {x : Ext} {fl : Flow} {s : State} {log : List (List Event)} {evs : List Event} {now : Time}

theorem ReachableUnder.reachable {C : State → Event → Prop} (h : ReachableUnder x fl C s log) : Reachable x fl s log := by
  induction h with
  | new execID => exact .new execID
  | step req now _ _ hex hok _ ih ihsrc => exact .step req now ih ihsrc hex hok
  | reload _ ha ih => exact .reload ih ha

theorem ReachableUnder.command {C : State → Event → Prop} (h : ReachableUnder x fl C s log) (cmd : Command) (now : Time)
    (hok : (decide x fl s cmd now).result.isOk = true)
    (hC : Throughout (State.apply x.quote fl) C s (decide x fl s cmd now).events) :
    ReachableUnder x fl C (decide x fl s cmd now).state (record log (decide x fl s cmd now).events) :=
  @ReachableUnder.step x fl C s log [] _ (.ask (.command cmd)) now h (fun _ hs => by cases hs) (fun _ hs => by cases hs)
    (Outcome.result_events hok) hC

/-- What is assumed of the events of a decision that does what its program says. -/
theorem Limited.decision {c : Ctx} {m : DecM Unit} (h : Limited c m s True (Roomy c)) (hs : s.work.Fits c.fl)
    (hok : (runDecision m s).result = .ok evs)
    (hC : Path (State.apply c.x.quote c.fl) (FanRoom c.fl) s evs (runDecision m s).state) : Room c.fl (runDecision m s).state := by
  have h := h hs [] []
  unfold runDecision at hok hC ⊢
  revert h hok hC
  cases m { st := s, out := [], aux := [] } with
  | error e d => intro hok; cases hok
  | ok a d =>
    rintro hok hC ⟨-, evs', ho, -, hq⟩
    cases hok
    rw [List.nil_append] at ho
    exact hq (ho ▸ hC) trivial

theorem Work.Orderly.of_no_fan {w : Work} (hf : w.fans = ∅) (h1 : w.awaits.keys.length ≤ 1) : w.Orderly := by
  have hno : ∀ {k : String}, k ∉ w.fans := fun {k} => by rw [hf]; exact Std.ExtTreeMap.not_mem_empty
  exact ⟨fun _ _ hk => absurd hk hno, fun _ _ hk => absurd hk hno, fun _ _ => hno, h1⟩

theorem OneInProgress.orderly (h : OneInProgress fl s) : s.work.Orderly := by
  have hnone : s.awaits = ∅ → s.work.awaits.keys.length ≤ 1 := fun h => by
    show s.awaits.keys.length ≤ 1
    simp [h]
  cases h with
  | task _ _ fans _ awaits _ => exact .of_no_fan fans (hnone awaits)
  | child _ _ _ _ fans _ awaits => exact .of_no_fan fans (hnone awaits)
  | map _ _ _ _ fans awaits => exact .of_no_fan fans (hnone awaits)
  | @await k a awaits _ fans _ _ =>
    refine .of_no_fan fans ?_
    show s.awaits.keys.length ≤ 1
    simp [awaits, keys_single]
  | @fan fan f fans _ _ tasks children _ _ awaits =>
    have honly : ∀ k ∈ s.work.fans, k = fan := fun k hk => by
      have hk : k ∈ s.fans := hk
      rw [fans] at hk
      obtain ⟨v, hv⟩ := get_of_mem hk
      exact (get_of_single hv).1
    refine ⟨fun ht k hk => (honly k hk).trans (tasks _ _ ht).symm, fun hc k hk => (honly k hk).trans (children _ _ hc).symm,
      fun hk => ?_, hnone awaits⟩
    have hk : _ ∈ s.awaits := hk
    rw [awaits] at hk
    exact absurd hk Std.ExtTreeMap.not_mem_empty

theorem Work.orderly_of_idle {w : Work} (h : w.Idle) : w.Orderly :=
  .of_no_fan h.fans (by rw [show w.awaits = ∅ from h.awaits]; simp)

theorem Reachable.orderly (wf : WellFormed fl) (h : Reachable x fl s log) : s.work.Orderly := by
  rcases (h.tracked wf).idle_or_rested with hi | ⟨-, hr⟩
  · exact Work.orderly_of_idle hi
  · exact hr.progress.one.orderly

theorem Reachable.clear (wf : WellFormed fl) (h : Reachable x fl s log) (hroom : Room fl s) (hno : s.exists = false) : Clear fl s := by
  rcases (h.tracked wf).idle_or_rested with hi | ⟨hu, -⟩
  · refine ⟨hroom.steps, fun k hk => ?_⟩
    have hk : k ∈ s.work.fans := hk
    rw [show s.work.fans = ∅ from hi.fans] at hk
    exact Std.ExtTreeMap.not_mem_empty hk
  · rw [hu.live.exists] at hno
    cases hno

theorem Ask.roomy (wf : WellFormed fl) (h : Reachable x fl s log) (hroom : Room fl s) {a : Ask} {slog : List (List Event)}
    (hsrc : ∀ src, a.source = some src → Reachable x fl src slog ∧ Room fl src) (hok : (a.decide x fl s now).result = .ok evs)
    (hC : Path (State.apply x.quote fl) (FanRoom fl) s evs (a.decide x fl s now).state) : Room fl (a.decide x fl s now).state := by
  have hs := h.fits wf
  cases a with
  | command cmd =>
    simp only [Ask.decide] at hok hC ⊢
    rcases decide_cases x fl s cmd now with hd | hd | ⟨e, hd⟩
    · rw [hd] at hok hC ⊢
      refine Limited.decision (c := ⟨x, fl, now, cmd.id⟩) ?_ hs hok hC
      exact decideData_roomy wf _ (fun _ => ⟨hroom, h.orderly wf⟩) fun _ => h.clear wf hroom
    · rw [hd]
      exact hroom
    · rw [hd] at hok
      cases hok
  | fork src source seq cmdID writes =>
    obtain ⟨hr, hsr⟩ := hsrc src rfl
    simp only [Ask.decide, decideFork] at hok hC ⊢
    split at hok
    · rename_i hex
      rw [if_pos hex]
      exact hroom
    · rename_i hex
      rw [if_neg hex] at hC ⊢
      refine Limited.decision (c := ⟨x, fl, now, cmdID⟩) ?_ hs hok hC
      exact forkProg_roomy wf (hr.fits wf) _ _ _ fun _ => ⟨hsr, hr.orderly wf⟩

theorem Request.roomy (wf : WellFormed fl) (h : Reachable x fl s log) (hroom : Room fl s) {req : Request} {slog : List (List Event)}
    (hsrc : ∀ src, req.source = some src → Reachable x fl src slog ∧ Room fl src)
    (hex : ∀ src, req.source = some src → src.exists = true) (hok : (req.perform x fl s now).result = .ok evs)
    (hC : Path (State.apply x.quote fl) (FanRoom fl) s evs (req.perform x fl s now).state) : Room fl (req.perform x fl s now).state := by
  cases req with
  | ask a => exact Ask.roomy wf h hroom hsrc hok hC
  | continueAsNew seg cmdID =>
    simp only [Request.perform, Packtrail.continueAsNew] at hok hC ⊢
    split at hok
    · rename_i hno
      rw [if_pos hno]
      exact hroom
    · rename_i hno
      rw [if_neg hno] at hC ⊢
      refine Limited.decision (c := ⟨x, fl, now, cmdID⟩) (emit_continued ?_ (h.fits wf) fun _ => hroom) (h.fits wf) hok hC
      exact (State.work_encoded _).trans (State.work_encoded s)
  | abort a decided cmdID reason msg =>
    simp only [Request.perform] at hok hC ⊢
    cases hd : (a.decide x fl s decided).result with
    | error e => exact hroom
    | ok evs₀ =>
      rw [hd] at hok hC
      cases evs₀ with
      | nil => exact hroom
      | cons first rest =>
        -- what is aborted would have begun the execution
        have hfrom : (Request.ask a).Sourced x fl := fun src hs => ⟨hex src hs, slog, (hsrc src hs).1⟩
        have hwrote := ((h.tracked wf).wrote wf (.ask a) (hfrom.ok wf) decided hd (List.cons_ne_nil _ _)).1
        have hdue := Ask.decided wf (h.fits wf) (fun src hs => (hsrc src hs).1.fits wf) hd
        refine Limited.decision (c := ⟨x, fl, now, cmdID⟩) (abortProg_roomy (fun ev he => ?_) reason msg fun _ => hroom) (h.fits wf) hok hC
        split at he
        · cases he
        · rename_i hnone
          cases he
          have hzero : s.events = 0 := by simpa [State.exists] using hnone
          generalize (a.decide x fl s decided).state = t at hdue
          cases hdue with
          | cons hguard _ _ =>
            generalize ((Request.ask a).perform x fl s decided).state = u at hwrote
            cases hwrote with
            | cons hpromise _ _ =>
              exact ⟨hpromise.begins.2 hzero, hguard.due, hguard.fork.mono fun src hs => (hsrc src hs).2⟩

theorem ReachableUnder.room (wf : WellFormed fl) (h : ReachableUnder x fl (FanRoom fl) s log) : Room fl s := by
  induction h with
  | new execID => exact ⟨Nat.zero_le _, fun k hk => absurd hk Std.ExtTreeMap.not_mem_empty⟩
  | step req now h hsrc hex hok hC ih ihsrc =>
    have hduly := perform_duly wf (h.reachable.fits wf) (fun src hs => (hsrc src hs).reachable.fits wf) hok
    exact Request.roomy wf h.reachable ih (fun src hs => ⟨(hsrc src hs).reachable, ihsrc src hs⟩) hex hok
      ((hduly.throughout hC).mono fun _ _ hg => hg.2)
  | reload _ ha ih =>
    refine ih.shrinks ⟨(congrArg Work.steps ha.work).symm, fun k hk => ?_⟩
    have hk : k ∈ (State.work _).fans := hk
    rw [← ha.work] at hk
    exact hk

/-- **The recursion limit holds** in every run that opens its fan-outs with room for their branches and their join. -/
theorem steps_within_limit (hv : validate x fl = []) (h : ReachableUnder x fl (FanRoom fl) s log) :
    s.steps ≤ fl.maxStepsOrDefault :=
  (h.room (wellFormed_of_validate hv)).steps

end

def splitReview : Flow :=
  { oneTask with
    nodes := [{ id := "split", type := .fanout, branches := ["draft", "check"], next := "merge" },
      { id := "draft", type := .task, kind := "write" }, { id := "check", type := .task, kind := "read" },
      { id := "merge", type := .join }] }

theorem splitReview_valid : validate plainExt splitReview = [] := by decide +kernel

instance (fl : Flow) (s : State) (ev : Event) : Decidable (FanRoom fl s ev) := by
  unfold FanRoom
  cases ev.data <;> infer_instance

def splitStarted : Outcome := decide plainExt splitReview (State.new "r1") startReview 1

theorem splitReview_within : splitStarted.state.steps = 3 ∧ splitStarted.state.steps ≤ splitReview.maxStepsOrDefault := by
  have hnew : ReachableUnder plainExt splitReview (FanRoom splitReview) (State.new "r1") [] := .new "r1"
  have hrun := hnew.command startReview 1 (by decide +kernel) (by decide +kernel)
  exact ⟨by decide +kernel, steps_within_limit splitReview_valid hrun⟩

/-- One entry is allowed; the fan-out and its two branches are three. -/
def tightReview : Flow := { splitReview with maxSteps := 1 }

def tightStarted : State × List (List Event) :=
  (serve plainExt tightReview (State.new "r1") [] [(startReview, 1)]).get (by decide +kernel)

theorem branches_exceed_limit : validate plainExt tightReview = [] ∧
    ∃ s log, Reachable plainExt tightReview s log ∧ tightReview.maxStepsOrDefault = 1 ∧ s.steps = 3 := by
  have hr : Reachable plainExt tightReview tightStarted.1 tightStarted.2 := (Reachable.new "r1").serve (Option.some_get _).symm
  refine ⟨by decide +kernel, tightStarted.1, tightStarted.2, hr, by decide +kernel, by decide +kernel⟩

/-! ## The steps budget

`Budget` names a built-in counter `steps` (`flow/flow.go:213`); `overBudgetWith` looks `steps` up among the
counters the workers report, and no entry ever adds to those. So no entry is refused for want of budget
(`enter_first`), and the budget bounds the entries only as far as the workers report them. -/

/-- An entry is refused for want of budget. -/
def RefusesEntry (x : Ext) (fl : Flow) (s : State) : Prop :=
  ∀ (now : Time) (cmdID id : String) (aux : List String), Enterable fl id →
    ∃ d ev e, enter ⟨x, fl, now, cmdID⟩ id { st := s, out := [], aux } = .ok () d ∧ d.out = [ev] ∧ ev.data = .failed e ∧
      e.reason = "budget_exceeded"

/-- What the budget of `steps` is for: no more entries than `b`, and the next one is refused. -/
def StepBudget (x : Ext) (fl : Flow) (b : Rat) (s : State) : Prop :=
  (s.steps : Rat) ≤ b ∧ (b < (s.steps : Rat) + 1 → RefusesEntry x fl s)

section
variable {c : Ctx} {s : State}

theorem enterStep_first (wf : WellFormed c.fl) {k : String → DecM Unit}
    (hk : ∀ {id : String} {s : State}, Enterable c.fl id → Behaves c (fun _ => True) (k id) s) {id : String} (he : Enterable c.fl id)
    (hs : s.work.Fits c.fl) {aux : List String} {d : Session State Event (List String)}
    (h : enterStep c k id { st := s, out := [], aux } = .ok () d) :
    ∃ ev evs, d.out = ev :: evs ∧ (ev.data = .entered { node := id } ∨ ∃ e, ev.data = .failed e ∧ e.reason = "max_steps") := by
  obtain ⟨n, hn, hty⟩ := he
  have hid : c.fl.node n.id = some n := (Flow.node_id hn).symm ▸ hn
  simp only [enterStep, hn] at h
  change (ite _ _ _ : DecM Unit) _ = _ at h
  split at h
  · change emitWith c.apply _ _ = _ at h
    unfold emitWith at h
    split at h <;> cases h
    exact ⟨_, [], rfl, .inr ⟨_, rfl, rfl⟩⟩
  · rename_i hroom
    have hroom : ¬ c.fl.maxStepsOrDefault < s.steps + 1 := hroom
    have hfits : ∀ s', c.apply s (c.event (.entered { node := id }) s) = .ok s' → s'.work.Fits c.fl := fun s' ha => by
      rw [State.apply_work ha]
      exact hs.step (x := c.x) (.inl (by omega))
    obtain ⟨evs, hout⟩ :=
      Runs.emit_first (fun s' ha => entered_behaves (fun _ _ => trivial) hk wf hid hty id (hfits s' ha)) h
    exact ⟨_, evs, hout, .inl rfl⟩

/-- **An entry is recorded, or refused by the recursion limit**, whatever the budget. -/
theorem enter_first (wf : WellFormed c.fl) {id : String} (he : Enterable c.fl id) (hs : s.work.Fits c.fl) {aux : List String}
    {d : Session State Event (List String)} (h : enter c id { st := s, out := [], aux } = .ok () d) :
    ∃ ev evs, d.out = ev :: evs ∧ (ev.data = .entered { node := id } ∨ ∃ e, ev.data = .failed e ∧ e.reason = "max_steps") := by
  change enterFuel c (c.fl.maxStepsOrDefault - s.steps) id _ = _ at h
  cases hf : c.fl.maxStepsOrDefault - s.steps with
  | zero =>
    rw [hf] at h
    exact enterStep_first wf (fun _ => .throw _) he hs h
  | succ f =>
    rw [hf] at h
    exact enterStep_first wf (enterFuel_behaves (fun _ _ => trivial) wf f) he hs h

end

theorem not_refusesEntry {x : Ext} {fl : Flow} {s : State} (wf : WellFormed fl) (hs : s.work.Fits fl) : ¬ RefusesEntry x fl s := by
  intro h
  obtain ⟨d, ev, e, hok, hout, hev, hreason⟩ := h 0 "" _ [] wf.start
  obtain ⟨ev', evs, hout', hfirst⟩ := enter_first wf wf.start hs hok
  cases hout.symm.trans hout'
  rcases hfirst with hentered | ⟨e', hfailed, hmax⟩
  · cases hev.symm.trans hentered
  · cases hev.symm.trans hfailed
    rw [hreason] at hmax
    simp at hmax

/-- **When the steps budget is kept.** An unfinished execution keeps it exactly as long as one more entry is within it, for
that entry is not refused. The reported counter keeps the entries within the budget if it is not behind them, and the
recursion limit keeps the whole budget if it stops every run before. -/
theorem step_budget_kept {x : Ext} {fl : Flow} {s : State} {log : List (List Event)} (hv : validate x fl = [])
    (h : Reachable x fl s log) (hlive : s.status.terminal = false) {b : Rat} (hb : fl.budget["steps"]? = some b) :
    ¬ RefusesEntry x fl s ∧ (StepBudget x fl b s ↔ (s.steps : Rat) + 1 ≤ b) ∧
    ((s.steps : Rat) ≤ s.counters.getD "steps" 0 → (s.steps : Rat) ≤ b) ∧
    (ReachableUnder x fl (FanRoom fl) s log → (fl.maxStepsOrDefault : Rat) + 1 ≤ b → StepBudget x fl b s) := by
  have wf := wellFormed_of_validate hv
  have hno : ¬ RefusesEntry x fl s := not_refusesEntry wf (h.fits wf)
  have hiff : StepBudget x fl b s ↔ (s.steps : Rat) + 1 ≤ b := by
    constructor
    · intro hkept
      by_contra hlt
      exact hno (hkept.2 (not_le.1 hlt))
    · intro hle
      exact ⟨by linarith, fun hlt => absurd hle (not_le.2 hlt)⟩
  have hwithin : Within fl s := (h.solvent hv).resolve_left (by simp [hlive])
  refine ⟨hno, hiff, fun hle => hle.trans (hwithin "steps" b hb), fun hroom hmax => hiff.2 ?_⟩
  have hle : (s.steps : Rat) ≤ fl.maxStepsOrDefault := by
    exact_mod_cast (hroom.room wf).steps
  linarith

def roomyReview : Flow := { splitReview with maxSteps := 20, budget := (∅ : SMap Rat).insert "steps" 30 }

def roomyStarted : Outcome := decide plainExt roomyReview (State.new "r1") startReview 1

theorem roomyReview_within_budget : roomyStarted.state.steps = 3 ∧ ¬ RefusesEntry plainExt roomyReview roomyStarted.state ∧
    StepBudget plainExt roomyReview 30 roomyStarted.state := by
  have hvalid : validate plainExt roomyReview = [] := by decide +kernel
  have hrun : Reachable plainExt roomyReview roomyStarted.state (record [] roomyStarted.events) :=
    (Reachable.new "r1").command startReview 1 (by decide +kernel)
  have hlive : roomyStarted.state.status.terminal = false := by decide +kernel
  have hbudget : roomyReview.budget["steps"]? = some 30 := by decide +kernel
  have hsteps : roomyStarted.state.steps = 3 := by decide +kernel
  obtain ⟨hno, hiff, -, -⟩ := step_budget_kept hvalid hrun hlive hbudget
  refine ⟨hsteps, hno, hiff.2 ?_⟩
  rw [hsteps]
  norm_num

/-- Two entries under a budget of one. -/
def cappedReview : Flow :=
  { oneTask with
    nodes := [{ id := "draft", type := .task, kind := "write", next := "check" }, { id := "check", type := .task, kind := "read" }]
    budget := (∅ : SMap Rat).insert "steps" 1 }

def cappedRun : State × List (List Event) :=
  (serve plainExt cappedReview (State.new "r1") []
    [(startReview, 1), (⟨"done-1", .complete { key := "draft", generation := 1, attempt := 1 }⟩, 2)]).get (by decide +kernel)

theorem step_budget_ignored : validate plainExt cappedReview = [] ∧ cappedReview.budget["steps"]? = some 1 ∧
    ∃ s log, Reachable plainExt cappedReview s log ∧ s.status.terminal = false ∧ s.steps = 2 := by
  have hr : Reachable plainExt cappedReview cappedRun.1 cappedRun.2 := (Reachable.new "r1").serve (Option.some_get _).symm
  exact ⟨by decide +kernel, by decide +kernel, cappedRun.1, cappedRun.2, hr, by decide +kernel, by decide +kernel⟩

end Packtrail
