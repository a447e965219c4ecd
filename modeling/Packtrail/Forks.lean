import Packtrail.Children

/-
# Beginnings

An execution begins by a start or by a fork (`Begun`). A fork copies the open children of its source
under their old ids and starts each of them again under an id of its own; until then they are set aside
as inherited, and no list names them (`Spares`). Its first decision may be too large to store: what
replaces it knows nothing of inheritance.

**`no_orphaned_child`** is about executions begun by a start, **`fork_spares_source`** says when no list
of a fork names a child of its source.
-/

namespace Packtrail

open Replay Emitter

/-! ## Beginning by a fork -/

/-- Every event of `m` meets `P` in the state it is emitted in. -/
def Emits {α : Type} (c : Ctx) (P : State → Payload → Prop) (m : DecM α) : Prop :=
  ∀ a s, Agree c.apply Eq Eq (fun _ s ev => P s ev.data) a m m s s

namespace Emits

variable {c : Ctx} {P : State → Payload → Prop} {α β : Type} {m m' : DecM α} {f : α → DecM β}

theorem pure (v : α) : Emits c P (Pure.pure v : DecM α) := fun _ _ => Agree.pure v rfl

theorem throw (e : Err) : Emits c P (MonadExcept.throw e : DecM α) := fun _ _ => Agree.throw e

theorem bind (hm : Emits c P m) (hf : ∀ v, Emits c P (f v)) : Emits c P (m >>= f) :=
  fun a s => Agree.bind (hm a s) fun v t _ ht => ht ▸ hf v a t

theorem ite {p : Prop} [Decidable p] (hm : Emits c P m) (hm' : Emits c P m') : Emits c P (if p then m else m') := by
  split
  · exact hm
  · exact hm'

theorem read {f : State → DecM β} (h : ∀ s, Emits c P (f s)) : Emits c P (getSt >>= f) :=
  fun a s => Agree.getSt (h s a s)

theorem emitHere {p : Payload} {a : List String} {s : State} (hp : P s p) :
    Agree c.apply Eq Eq (fun _ s ev => P s ev.data) a (emit c p) (emit c p) s s := by
  refine Agree.emit ?_ rfl hp
  cases c.apply s (c.event p s) with
  | error e => exact .inl ⟨e, rfl, rfl⟩
  | ok t => exact .inr ⟨t, t, rfl, rfl, rfl⟩

theorem emit {p : Payload} (hp : ∀ s, P s p) : Emits c P (emit c p) := fun _ s => emitHere (hp s)

end Emits

section
variable {c : Ctx} {base : Nat} {s : State}

variable {P : State → Payload → Prop} {first : Payload}

theorem nodeOf_emits (id : String) : Emits c P (nodeOf c id) := by
  unfold nodeOf
  split
  · exact .pure _
  · exact .throw _

theorem rekickTasks_emits (hs : ∀ s d, P s (.scheduled d)) (ht : ∀ s d, P s (.timer d)) (keys : List String) :
    Emits c P (rekickTasks c keys) := by
  induction keys with
  | nil => exact .pure _
  | cons key keys ih =>
    unfold rekickTasks
    refine .read fun s => ?_
    split
    · exact .throw _
    · refine .ite ih (.bind (nodeOf_emits _) fun n => .bind (.read fun s => .bind (.emit fun s => hs s _) fun _ => ?_) fun _ => ih)
      exact .ite (.read fun s => .emit fun s => ht s _) (.pure _)

theorem startChild_emits (hc : ∀ s d, P s (.child d)) (hf : ∀ s d, P s (.failed d)) (n : Node) (key owner : String)
    (index : Nat) (item : Raw) : Emits c P (startChild c n key owner index item) := by
  have hfail : ∀ r m n, Emits c P (fail c r m n) := fun r m n => .read fun s => fun a s' => Agree.getAux (Emits.emit (fun s => hf s _) a s')
  refine .read fun s => ?_
  simp only
  split
  · exact hfail _ _ _
  · exact .ite (.emit fun s => hc s _) (hfail _ _ _)

theorem rekickChildren_emits (hc : ∀ s d, P s (.child d)) (hf : ∀ s d, P s (.failed d)) (keys : List String) :
    Emits c P (rekickChildren c keys) := by
  induction keys with
  | nil => exact .pure _
  | cons key keys ih =>
    unfold rekickChildren
    refine .read fun s => .ite (.pure _) ?_
    split
    · exact .throw _
    · refine .bind (nodeOf_emits _) fun n => .bind ?_ fun _ => ih
      exact startChild_emits hc hf _ _ _ _ _

theorem rekickAwaits_steady {keep : Bool} (keys : List String) : Steady keep c (rekickAwaits c keys) := by
  induction keys with
  | nil => exact .pure _
  | cons key keys ih =>
    unfold rekickAwaits
    exact .bind (nodeOf_steady _) fun n => .bind (await_steady enter_steady _) fun _ => ih

theorem rekickChildren_steady {keep : Bool} (keys : List String) : Steady keep c (rekickChildren c keys) := by
  induction keys with
  | nil => exact .pure _
  | cons key keys ih =>
    unfold rekickChildren
    refine .read (fun s => ?_) fun s => .ite (.pure _) ?_
    · have hchild : (s.bare keep (c.fl.strict keep)).children[key]? = s.children[key]? := rfl
      simp only [State.maps_bare, hchild]
      cases s.children[key]? with
      | none => rfl
      | some ch =>
        simp only
        cases s.maps[ch.owner]? <;> rfl
    · split
      · exact .throw _
      · exact .bind (nodeOf_steady _) fun n => .bind (startChild_steady _ _ _ _ _) fun _ => ih

/-- What the events of a fork keep to: no child numbered by the source is listed. -/
structure Spares (x : Ext) (fl : Flow) (base : Nat) (s : State) (ev : Event) : Prop where
  promise : Promise fl base s ev
  lists : ∀ id ∈ ev.data.cancels, (∃ (k : String) (ch : ChildState), s.children[k]? = some ch ∧ ch.childID = id) ∧
    ∃ m, base < m ∧ Numbered id m
  named : ev.data.Named x s

/-- What the first decision of a fork begun by `first` keeps to. -/
structure Forking (x : Ext) (fl : Flow) (base : Nat) (first : Payload) (s : State) (ev : Event) : Prop
    extends Spares x fl base s ev where
  first : ev.data.begins = true → ev.data = first
  uncontinued : ev.data.isContinued = false

/-- Open children are among those inherited as `inherited` or were started in this log. -/
structure Inherits (base : Nat) (inherited : List String) (s : State) : Prop where
  children : ∀ {k : String} {ch}, s.children[k]? = some ch → ch.childID ∈ inherited ∨ ∃ m, base < m ∧ Numbered ch.childID m
  base_le : base ≤ s.n
  begun : 0 < s.events

theorem Inherits.step {x : Ext} {fl : Flow} {inherited : List String} {s' : State} {ev : Event} (h : Inherits base inherited s)
    (hp : Promise fl base s ev) (ha : s.apply x.quote fl ev = .ok s') : Inherits base inherited s' := by
  have hb : ev.data.begins = false := by
    have := hp.begins
    rw [Bool.eq_false_iff]
    exact fun hbeg => absurd (this.1 hbeg) h.begun.ne'
  have hw := State.apply_work ha
  refine ⟨fun {k ch} hget => ?_, ?_, ?_⟩
  · have hget : (s.work.step ev.data).children[k]? = some ch := by rw [← hw]; exact hget
    rcases child_step hp.offer hb hget with hold | ⟨d, hd, -, hid⟩
    · exact h.children hold
    · have ho : Offer fl base s (.child d) := hd ▸ hp.offer
      obtain ⟨hn, hnum, -⟩ := ho
      exact .inr ⟨d.childN, by have := h.base_le; omega, hid ▸ hnum⟩
  · have := n_step hp.offer hb
    rw [← hw] at this
    exact h.base_le.trans this
  · rw [hp.events ha]
    omega

/-- Events that list children do so as `cancelChildren` does, with the inherited ones left out. -/
theorem Inherits.spares {fl : Flow} {inherited : List String} {ev : Event} (h : Inherits base inherited s)
    (hp : Promise fl base s ev) (hd : ev.data.Draws c inherited s)
    (hj : inherited = [] ∨ (∀ d, ev.data ≠ .join d) ∧ ∀ d, ev.data ≠ .mapAbort d) : Forking c.x fl base first s ev := by
  refine ⟨⟨hp, fun id hid => ?_, hd.named⟩, fun hb => absurd (hp.begins.1 hb) h.begun.ne', Payload.uncontinued hd.ordinary⟩
  have hopen : ∃ (k : String) (ch : ChildState), s.children[k]? = some ch ∧ ch.childID = id ∧ ch.childID ∉ inherited := by
    have hlist : id ∈ cancelChildren s inherited →
        ∃ (k : String) (ch : ChildState), s.children[k]? = some ch ∧ ch.childID = id ∧ ch.childID ∉ inherited := by
      intro hid
      obtain ⟨k, ch, hget, rfl, -, hnew⟩ := mem_cancelChildren.1 hid
      exact ⟨k, ch, hget, rfl, hnew⟩
    have howned : inherited = [] → ∀ owner, id ∈ ownedChildren s owner →
        ∃ (k : String) (ch : ChildState), s.children[k]? = some ch ∧ ch.childID = id ∧ ch.childID ∉ inherited := by
      rintro rfl owner hid
      obtain ⟨⟨k, ch⟩, hmem, rfl⟩ := List.mem_map.1 hid
      exact ⟨k, ch, Std.ExtTreeMap.mem_toList_iff_getElem?_eq_some.1 (List.mem_filter.1 hmem).1, rfl, List.not_mem_nil⟩
    have ho := hp.offer
    cases hp' : ev.data <;> rw [hp'] at hid hd ho hj <;> first | cases hid | skip
    case failed d =>
      have hd : d.cancelChildren = _ := hd
      exact hlist (hd ▸ hid)
    case cancelled d =>
      have hd : d.cancelChildren = _ := hd
      exact hlist (hd ▸ hid)
    case join d => exact howned (hj.resolve_right fun h => h.1 d rfl) d.fanout (ho.2 ▸ hid)
    case mapAbort d =>
      have ho : d.cancelChildren = _ := ho
      exact howned (hj.resolve_right fun h => h.2 d rfl) d.node (ho ▸ hid)
  obtain ⟨k, ch, hget, rfl, hnew⟩ := hopen
  exact ⟨⟨k, ch, hget, rfl⟩, (h.children hget).resolve_left hnew⟩

/-- Events that list nothing. -/
def Quiet (x : Ext) (first : Payload) (s : State) (p : Payload) : Prop :=
  p.cancels = [] ∧ p.Named x s ∧ (p.begins = true → p = first) ∧ p.isContinued = false

theorem quiet_spares {α : Type} {a : List String} {m : DecM α} {Q : α → State → Prop} (h : Holds c base m s Q)
    (hm : Agree c.apply Eq Eq (fun _ s ev => Quiet c.x first s ev.data) a m m s s) :
    RunsAs c.apply (Forking c.x c.fl base first) Err.benign a m s fun v b s' => b = a ∧ Q v s' := by
  refine (((RunsAs.of_runs h).and_agree hm).sharpen (I := fun _ => True) trivial (fun _ _ _ _ _ _ => trivial) ?_).mono
    fun _ _ _ h => h.1
  exact fun s e _ hg => ⟨⟨hg.1, fun id hid => absurd (hg.2.1 ▸ hid) List.not_mem_nil, hg.2.2.1⟩, hg.2.2.2.1, hg.2.2.2.2⟩

theorem rekick_spares (wf : WellFormed c.fl) (hu : Unfinished c.fl base s) (hp : Progress c.fl s.work)
    (hgen : ∀ (k : String) (t : Task), s.work.tasks[k]? = some t → t.generation ≤ base)
    (hold : ∀ (k : String) (ch : ChildState), s.work.children[k]? = some ch → ∃ m ≤ base, Numbered ch.childID m) :
    RunsAs c.apply (Forking c.x c.fl base first) Err.benign [] (rekick c) s fun _ _ s' => Settled c.fl base s' ∧ s'.work.OwnChildren base := by
  unfold rekick
  refine RunsAs.getSt ?_
  have htasks := rekickTasks_emits (c := c) (P := Quiet c.x first) (fun _ _ => ⟨rfl, trivial, nofun, rfl⟩)
    (fun _ _ => ⟨rfl, trivial, nofun, rfl⟩) s.tasks.keys
  refine (quiet_spares (rekickTasks_all hu hp hgen) (htasks _ s)).bind ?_
  rintro - _ s₁ ⟨rfl, hu₁, hp₁, hd₁, hc₁⟩
  refine RunsAs.getSt ?_
  -- with an await open there is no child to list
  have hawaits : RunsAs c.apply (Forking c.x c.fl base first) Err.benign [] (rekickAwaits c s₁.awaits.keys) s₁ fun _ b s' =>
      b = [] ∧ Unfinished c.fl base s' ∧ Progress c.fl s'.work ∧ s'.work.TasksDispatched c.fl base (fun _ => False) ∧
        s'.work.AwaitsTimed ∧ s'.work.children = s₁.work.children := by
    by_cases he : s₁.awaits.keys = []
    · have hnone : s₁.work.AwaitsTimed := fun k a hget => by
        have : k ∈ s₁.awaits.keys := Std.ExtTreeMap.mem_keys.2 (mem_of_get hget)
        rw [he] at this
        cases this
      rw [he]
      exact RunsAs.pure ⟨rfl, hu₁, hp₁, hd₁, hnone, rfl⟩
    · have hno : s₁.work.children = ∅ := by
        have hne : s₁.work.awaits ≠ ∅ := fun h => he (by rw [show s₁.awaits = ∅ from h]; rfl)
        cases hp₁ with
        | task h => exact h.rest.children
        | await h _ => exact h.rest.children
        | child h => exact absurd h.rest.awaits hne
        | fan h _ => exact absurd h.rest.awaits hne
        | map h _ => exact absurd h.rest.awaits hne
      have hinv : Inherits base [] s₁ := by
        refine ⟨fun {k ch} hget => ?_, hu₁.base_le, hu₁.live.begun⟩
        rw [show s₁.children = ∅ from hno, get_empty] at hget
        cases hget
      have hpeer : Peer false c.fl s₁ s₁ := rfl
      refine (((RunsAs.of_runs (rekickAwaits_runs hu₁ hp₁ hd₁)).and_agree (rekickAwaits_steady _ [] s₁ s₁ hpeer)).sharpen hinv
        (fun _ _ _ hI hg ha => hI.step hg.1 ha) fun _ _ hI hg => hI.spares hg.1 hg.2.draws (.inl rfl)).mono fun _ _ _ h => h.1
  refine hawaits.bind ?_
  rintro - _ s₂ ⟨rfl, hu₂, hp₂, hd₂, ha₂, hc₂⟩
  refine RunsAs.getSt (RunsAs.setAux ?_)
  have hall : ∀ (k : String) (ch : ChildState), s₂.children[k]? = some ch → ∃ m ≤ base, Numbered ch.childID m := by
    intro k ch hget
    have hget : s₂.work.children[k]? = some ch := hget
    rw [hc₂, hc₁] at hget
    exact hold k ch hget
  have hinv : Inherits base (s₂.children.toList.map fun kc => kc.2.childID) s₂ := by
    refine ⟨fun {k ch} hget => .inl ?_, hu₂.base_le, hu₂.live.begun⟩
    exact List.mem_map.2 ⟨(k, ch), Std.ExtTreeMap.mem_toList_iff_getElem?_eq_some.2 hget, rfl⟩
  have hpeer : Peer false c.fl s₂ s₂ := rfl
  have hruns := rekickChildren_runs wf hu₂ ⟨hp₂, hd₂, ha₂⟩ Std.ExtTreeMap.nodup_keys
    (fun k hk => Std.ExtTreeMap.mem_keys.1 hk) fun k ch hget => by
      have hmem : k ∈ s₂.work.children.keys := Std.ExtTreeMap.mem_keys.2 (mem_of_get hget)
      rw [if_pos hmem]
      exact hall k ch hget
  have hemits := rekickChildren_emits (c := c) (P := fun _ p => (∀ d, p ≠ .join d) ∧ ∀ d, p ≠ .mapAbort d)
    (fun _ _ => ⟨nofun, nofun⟩) (fun _ _ => ⟨nofun, nofun⟩)
    s₂.children.keys (s₂.children.toList.map fun kc => kc.2.childID) s₂
  refine ((((RunsAs.of_runs hruns).and_agree (rekickChildren_steady _ _ s₂ s₂ hpeer)).and_agree hemits).sharpen hinv
    (fun _ _ _ hI hg ha => hI.step hg.1.1 ha) fun _ _ hI hg => hI.spares hg.1.1 hg.1.2.draws (.inr hg.2)).mono fun _ _ _ h => ?_
  exact h.1.2.2

theorem forkProg_spares (wf : WellFormed c.fl) {src : State} {b : Nat} (ha : s.Absent) (hsrc : Settled c.fl b src)
    (source : String) (seq : Nat) (writes : SMap Json) :
    RunsAs c.apply (Forking c.x c.fl src.n (.forked { execID := s.execID, source, seq, state := src.marshal })) Err.benign [] (forkProg c src source seq writes) s fun _ _ s' =>
    Settled c.fl src.n s' ∧ s'.work.OwnChildren src.n := by
  unfold forkProg
  refine RunsAs.getSt ((quiet_spares (forked_runs ha hsrc) (Emits.emitHere ⟨rfl, rfl, fun _ => rfl, rfl⟩)).bind ?_)
  rintro - _ s₁ ⟨rfl, h₁⟩
  refine RunsAs.getSt ?_
  rcases h₁ with he | ⟨hu, hp, hgen, hold⟩
  · rw [if_pos he.status, if_pos he.status]
    split
    · exact RunsAs.pure ⟨.inl he, fun hget => (he.idle.no_child hget).elim⟩
    · exact RunsAs.throw trivial
  · have hst : s₁.status.terminal = false := hu.live.unended
    simp only [hst, Bool.false_eq_true, if_false]
    split
    · exact rekick_spares wf hu hp hgen hold
    · split
      · exact RunsAs.throw trivial
      · rename_i u hw
        refine (quiet_spares (edit_runs c.cmdID hu hw) (Emits.emitHere ⟨rfl, trivial, nofun, rfl⟩)).bind ?_
        rintro - _ s₂ ⟨rfl, hu₂, hw₂⟩
        exact rekick_spares wf hu₂ (by rw [hw₂]; exact hp) (by rw [hw₂]; exact hgen) (by rw [hw₂]; exact hold)

end

/-! ## The first decision -/

def Request.replaces : Request → Bool
  | .abort _ _ _ _ _ => true
  | _ => false

/-- The log of an execution begun by a start. -/
def Starts (evs : List Event) : Prop := ∃ ev rest d, evs = ev :: rest ∧ ev.data = .started d

theorem Starts.of_begins {ev : Event} {rest : List Event} (hb : ev.data.begins = true) (hf : ev.data.isForked = false) :
    Starts (ev :: rest) := by
  cases hd : ev.data <;> rw [hd] at hb hf <;> first | cases hb; done | skip
  · exact ⟨ev, rest, _, rfl, hd⟩
  · cases hf

/-- The log of a fork. -/
def Forks (evs : List Event) : Prop := ∃ ev rest d, evs = ev :: rest ∧ ev.data = .forked d

/-- The first decision of an execution: a start, a fork, or what replaces a fork too large to store. -/
inductive Begun (x : Ext) (fl : Flow) (req : Request) (s : State) (evs : List Event) (t : State) : Prop
  | start (hreq : req.source = none) (hstarts : Starts evs) (hp : Path (State.apply x.quote fl) (Recorded x fl 0) s evs t)
  | fork {src : State} {first : Payload} (hreq : req.source = some src) (hask : req.replaces = false) (hforks : Forks evs)
      (hp : Path (State.apply x.quote fl) (Forking x fl src.n first) s evs t) (hown : t.work.OwnChildren src.n)
  | replaced {src : State} (hreq : req.source = some src) (hask : req.replaces = true) (hforks : Forks evs)
      (hp : Path (State.apply x.quote fl) (fun s ev => Promise fl src.n s ev ∧ ev.data.Named x s) s evs t)
      (hlist : listed evs = cancelChildren src []) (hend : t.status.terminal = true)

section
variable {x : Ext} {fl : Flow} {s : State} {evs : List Event}

/-- The failure of an execution that inherits nothing. -/
def Fails (s : State) (ev : Event) : Prop := ∃ d, ev.data = .failed d ∧ d.cancelChildren = cancelChildren s []

variable {now : Time}

/-- The beginning that replaces a decision too large to store: the first event of that decision, and the
failure unless the execution is over with it. -/
theorem abort_first {first : Event} {cmdID reason msg : String} (ha : s.Absent)
    (hok : (abort x fl s (some first) cmdID reason msg now).result = .ok evs) :
    ∃ (ev : Event) (s₁ : State) (rest : List Event), ev.data = first.data ∧ s.apply x.quote fl ev = .ok s₁ ∧ evs = ev :: rest ∧
    Path (State.apply x.quote fl) Fails s₁ rest (abort x fl s (some first) cmdID reason msg now).state ∧
    (abort x fl s (some first) cmdID reason msg now).state.status.terminal = true ∧
    (s₁.status.terminal = true ∧ rest = [] ∨ listed rest = cancelChildren s₁ []) := by
  unfold abort abortProg runDecision at hok ⊢
  simp only [bind, EStateM.bind, getSt, ha.not_exists, Bool.false_eq_true, if_false, emit, emitWith] at hok ⊢
  cases happ : Ctx.apply ⟨x, fl, now, cmdID⟩ s (Ctx.event ⟨x, fl, now, cmdID⟩ first.data s) with
  | error e => simp only [happ] at hok; cases hok
  | ok s₁ =>
    simp only [happ] at hok ⊢
    by_cases hst : s₁.status.terminal = true
    · rw [if_pos hst] at hok ⊢
      cases hok
      exact ⟨Ctx.event ⟨x, fl, now, cmdID⟩ first.data s, s₁, [], rfl, happ, rfl, .nil s₁, hst, .inl ⟨hst, rfl⟩⟩
    · rw [if_neg hst] at hok ⊢
      unfold fail at hok ⊢
      simp only [bind, EStateM.bind, getSt, getAux, emit, emitWith] at hok ⊢
      cases hfail : Ctx.apply ⟨x, fl, now, cmdID⟩ s₁ (Ctx.event ⟨x, fl, now, cmdID⟩
          (.failed { error := msg, reason, node := "", cancelChildren := cancelChildren s₁ [] }) s₁) with
      | error e => simp only [hfail] at hok; cases hok
      | ok s₂ =>
        simp only [hfail] at hok ⊢
        cases hok
        obtain ⟨-, s₂', hs₂, rfl⟩ := State.apply_ok.1 hfail
        cases hs₂
        exact ⟨Ctx.event ⟨x, fl, now, cmdID⟩ first.data s, s₁, _, rfl, happ, rfl, .single ⟨_, rfl, rfl⟩ hfail, rfl,
          .inr (List.append_nil _)⟩

/-- A fork on an execution that does not exist yet. -/
theorem fork_spares (wf : WellFormed fl) (ha : s.Absent) {src : State} {b : Nat} (hsrc : Settled fl b src) {source : String} {seq : Nat}
    {cmdID : String} {writes : SMap Json} (hok : (decideFork x fl s src source seq cmdID writes now).result = .ok evs) :
    Path (State.apply x.quote fl) (Forking x fl src.n (.forked { execID := s.execID, source, seq, state := src.marshal })) s evs
    (decideFork x fl s src source seq cmdID writes now).state ∧
    (decideFork x fl s src source seq cmdID writes now).state.work.OwnChildren src.n := by
  unfold decideFork at hok ⊢
  rw [if_neg (by simp [ha.not_exists])] at hok ⊢
  have hruns := @forkProg_spares ⟨x, fl, now, cmdID⟩ s wf src b ha hsrc source seq writes []
  unfold runDecision at hok ⊢
  revert hruns hok
  cases forkProg ⟨x, fl, now, cmdID⟩ src source seq writes { st := s, out := [], aux := [] } with
  | error e d => exact fun hok _ => nomatch hok
  | ok _ d =>
    rintro hok ⟨⟨evs', ho, hp⟩, -, hown⟩
    cases hok
    exact ⟨by rw [show d.out = evs' from ho]; exact hp, hown⟩

theorem Path.forks {base : Nat} {d : Event.Forked} {t : State} (ha : s.Absent)
    (hp : Path (State.apply x.quote fl) (Forking x fl base (.forked d)) s evs t) (hne : evs ≠ []) : Forks evs := by
  cases hp with
  | nil => exact absurd rfl hne
  | cons guard _ _ => exact ⟨_, _, d, rfl, guard.first (guard.promise.begins.2 ha.events)⟩

theorem Path.starts {base : Nat} {t : State} (ha : s.Absent)
    (hp : Path (State.apply x.quote fl) (Recorded x fl base) s evs t)
    (hne : evs ≠ []) : Starts evs := by
  cases hp with
  | nil => exact absurd rfl hne
  | cons guard _ _ => exact .of_begins (guard.promise.begins.2 ha.events) guard.forkless

theorem first_begun (wf : WellFormed fl) (ha : s.Absent) {req : Request} (hsrc : req.Sourced x fl)
    (hok : (req.perform x fl s now).result = .ok evs) (hne : evs ≠ []) :
    Begun x fl req s evs (req.perform x fl s now).state := by
  obtain ⟨b, hd⟩ := perform_absent (x := x) wf ha req (hsrc.ok wf) now
  obtain ⟨hp, hset⟩ := hd.wrote hok hne
  have hself : Peer false fl s s := rfl
  have hcommand : ∀ {cmd : Command} {now : Time} {evs : List Event}, (decide x fl s cmd now).result = .ok evs → evs ≠ [] →
      Path (State.apply x.quote fl) (Recorded x fl 0) s evs (decide x fl s cmd now).state := by
    intro cmd now evs hok hne
    obtain ⟨hp', -⟩ := (decide_absent (x := x) wf ha cmd now).wrote hok hne
    cases decide_agrees x hself cmd now with
    | refused h _ => cases hok.symm.trans h
    | decided h _ _ hp₂ _ =>
      cases hok.symm.trans h
      exact (hp'.and hp₂).mono fun _ _ h => ⟨h.1, h.2.draws.lists, h.2.draws.named, Payload.not_forked h.2.draws.ordinary⟩
  cases req with
  | ask a =>
    cases a with
    | command cmd =>
      have hp := hcommand hok hne
      exact .start rfl (Path.starts ha hp hne) hp
    | fork src source seq cmdID writes =>
      obtain ⟨hex, slog, hr⟩ := hsrc src rfl
      obtain ⟨hp, hown⟩ := fork_spares wf ha ((hr.tracked wf).settled hex) hok
      exact .fork rfl rfl (Path.forks ha hp hne) hp hown
  | continueAsNew seg cmdID =>
    simp only [Request.perform, Packtrail.continueAsNew, ha.not_exists, Bool.not_false, Bool.true_or, if_true] at hok
    cases hok
    exact absurd rfl hne
  | abort a decided cmdID reason msg =>
    simp only [Request.perform, ha.not_exists, Bool.false_eq_true, if_false] at hok hp hset ⊢
    cases hask : (a.decide x fl s decided).result with
    | error e => rw [hask] at hok; cases hok
    | ok all =>
      cases all with
      | nil => rw [hask] at hok; cases hok; exact absurd rfl hne
      | cons first rest =>
        simp only [hask] at hok hp hset ⊢
        obtain ⟨ev, s₁, more, hev, happ, rfl, hfails, hend, hform⟩ := abort_first ha hok
        have hnamed : first.data.Named x s → Path (State.apply x.quote fl) (fun s ev => ev.data.Named x s) s (ev :: more) _ :=
          fun hn => .cons (hev ▸ hn) happ (hfails.mono fun s e he => by obtain ⟨d, hd, -⟩ := he; rw [hd]; trivial)
        cases a with
        | command cmd =>
          obtain ⟨_, _, d, he, hstart⟩ := Path.starts ha (hcommand hask (List.cons_ne_nil _ _)) (List.cons_ne_nil _ _)
          cases he
          cases hcommand hask (List.cons_ne_nil _ _) with
          | cons guard _ _ =>
            have hlists : Path (State.apply x.quote fl) (fun s ev => ev.data.Lists s ∧ ev.data.isForked = false) s (ev :: more) _ :=
              .cons (hev ▸ ⟨guard.lists, guard.forkless⟩) happ (hfails.mono fun s e he => by
                obtain ⟨d, hd, hl⟩ := he
                rw [hd]
                exact ⟨hl, rfl⟩)
            obtain rfl : b = 0 := by
              have ho := (first_begins ha hp).2
              rw [hev, hstart] at ho
              exact ho.1
            exact .start rfl ⟨ev, more, d, rfl, hev.trans hstart⟩ (((hp.and hlists).and (hnamed guard.named)).mono fun _ _ h =>
              ⟨h.1.1, h.1.2.1, h.2, h.1.2.2⟩)
        | fork src source seq cmdID writes =>
          obtain ⟨hex, slog, hr⟩ := hsrc src rfl
          obtain ⟨hfork, -⟩ := fork_spares wf ha ((hr.tracked wf).settled hex) hask
          cases hfork with
          | cons guard _ _ =>
            have hforked := guard.first (guard.promise.begins.2 ha.events)
            obtain rfl : b = src.n := by
              have ho := (first_begins ha hp).2
              rw [hev, hforked] at ho
              exact ho.1
            have hchildren : s₁.children = src.children := by
              show s₁.work.children = src.work.children
              rw [State.apply_work happ, hev, hforked]
              show src.encoded.work.children = _
              rw [State.work_encoded]
            refine .replaced rfl rfl ⟨ev, more, _, rfl, hev.trans hforked⟩ (hp.and (hnamed guard.named)) ?_ hend
            have hcancel : cancelChildren src [] = cancelChildren s₁ [] := by simp only [cancelChildren, hchildren]
            have hfirst : ev.data.cancels = [] := by rw [hev, hforked]; rfl
            rw [hcancel, show listed (ev :: more) = ev.data.cancels ++ listed more from rfl, hfirst, List.nil_append]
            rcases hform with ⟨hterm, rfl⟩ | hlist
            · -- a finished source has no children left
              rw [hfails.eq_of_nil] at hset
              rcases hset with he | ⟨hu, -⟩
              · have hempty : s₁.children = ∅ := eq_empty_of_get fun k => Option.eq_none_iff_forall_ne_some.2 fun ch hget => he.idle.no_child hget
                simp [listed, cancelChildren, hempty]
              · exact absurd hterm (by simp [hu.live.unended])
            · exact hlist

/-- Only a continuation continues. -/
theorem ask_uncontinued (wf : WellFormed fl) (ha : s.Absent) {a : Ask} (hsrc : SourceOk fl a.source)
    (hok : (a.decide x fl s now).result = .ok evs) : ∀ ev ∈ evs, ev.data.isContinued = false := by
  cases a with
  | command cmd =>
    have hself : Peer false fl s s := rfl
    cases decide_agrees x hself cmd now with
    | refused h _ => cases hok.symm.trans h
    | decided h _ _ hp _ =>
      cases hok.symm.trans h
      exact hp.all fun _ _ h => Payload.uncontinued h.draws.ordinary
  | fork src source seq cmdID writes =>
    obtain ⟨b, hb⟩ := hsrc src rfl
    exact (fork_spares wf ha hb hok).1.all fun _ _ h => h.uncontinued

theorem first_uncontinued (wf : WellFormed fl) (ha : s.Absent) {req : Request} (hsrc : SourceOk fl req.source)
    (hok : (req.perform x fl s now).result = .ok evs) : ∀ ev ∈ evs, ev.data.isContinued = false := by
  cases req with
  | ask a => exact ask_uncontinued wf ha hsrc hok
  | continueAsNew seg cmdID =>
    simp only [Request.perform, Packtrail.continueAsNew, ha.not_exists, Bool.not_false, Bool.true_or, if_true] at hok
    cases hok
    exact fun _ hev => (List.not_mem_nil hev).elim
  | abort a decided cmdID reason msg =>
    simp only [Request.perform, ha.not_exists, Bool.false_eq_true, if_false] at hok
    split at hok
    · cases hok
    · cases hok
      exact fun _ hev => (List.not_mem_nil hev).elim
    · rename_i first rest hask
      obtain ⟨ev, s₁, more, hev, -, rfl, hfails, -⟩ := abort_first ha hok
      intro e he
      rcases List.mem_cons.1 he with rfl | he
      · rw [hev]
        exact ask_uncontinued wf ha hsrc hask first List.mem_cons_self
      · obtain ⟨d, hd⟩ := hfails.all (P := fun e => ∃ d, e.data = .failed d) (fun _ _ h => h.imp fun _ => And.left) e he
        rw [hd]
        rfl

end

/-! ## Children of a log -/

/-- The children a log started. -/
def startedChildren (l : List Event) : List String :=
  l.flatMap fun ev => match ev.data with
    | .child d => [d.childID]
    | _ => []

/-- What a log with inherited numbers up to `base` says about the children that were started in it. -/
structure Owned (x : Ext) (execID : String) (base : Nat) (l : List Event) (s : State) : Prop where
  self : s.execID = execID
  named : ∀ id ∈ startedChildren l, ∃ n, id = childID x execID n
  started : ∀ {k : String} {ch}, s.children[k]? = some ch → (∃ m ≤ base, Numbered ch.childID m) ∨ ch.childID ∈ startedChildren l

section
variable {x : Ext} {fl : Flow} {base : Nat} {s s' : State} {ev : Event} {l : List Event} {execID : String}

theorem startedChildren_snoc (l : List Event) (ev : Event) :
    startedChildren (l ++ [ev]) = startedChildren l ++ startedChildren [ev] := List.flatMap_append

theorem startedChildren_one {d : Event.Child} (h : ev.data = .child d) : startedChildren [ev] = [d.childID] := by
  simp [startedChildren, h]

theorem startedChildren_none (h : ∀ d, ev.data ≠ .child d) : startedChildren [ev] = [] := by
  cases hd : ev.data <;> first | exact absurd hd (h _) | simp [startedChildren, hd]

theorem apply_execID (hp : Promise fl base s ev) (hn : ev.data.Named x s) (ha : s.apply x.quote fl ev = .ok s') :
    s'.execID = s.execID := by
  obtain ⟨-, s₁, hs₁, rfl⟩ := State.apply_ok.1 ha
  show s₁.execID = s.execID
  cases hbase : ev.data.isBase with
  | false => exact congrArg Prod.fst (State.origin_applyData hbase hs₁)
  | true =>
    have ho := hp.offer
    unfold State.applyData at hs₁
    cases hd : ev.data <;> rw [hd] at hbase hn ho <;> first | cases hbase; done | skip
    case started d => rw [hd] at hs₁; cases hs₁; exact hn
    case forked d => rw [hd] at hs₁; cases hs₁; exact hn
    case continued d =>
      obtain ⟨seg, q, hstate⟩ := ho
      rw [hd] at hs₁
      simp only [hstate] at hs₁
      cases hs₁
      rfl

theorem Owned.absent (h : s.Absent) : Owned x s.execID base [] s where
  self := rfl
  named _ hid := (List.not_mem_nil hid).elim
  started hget := ((h.work ▸ Work.none_idle : s.work.Idle).no_child hget).elim

theorem Owned.step (h : Owned x execID base l s) (hp : Promise fl base s ev) (hn : ev.data.Named x s)
    (ha : s.apply x.quote fl ev = .ok s') : Owned x execID base (l ++ [ev]) s' := by
  have hw := State.apply_work ha
  refine ⟨(apply_execID hp hn ha).trans h.self, fun id hid => ?_, fun {k ch} hget => ?_⟩
  · rw [startedChildren_snoc] at hid
    rcases List.mem_append.1 hid with hid | hid
    · exact h.named id hid
    · by_cases hc : ∃ d, ev.data = .child d
      · obtain ⟨d, hd⟩ := hc
        rw [startedChildren_one hd, List.mem_singleton] at hid
        rw [hd] at hn
        exact ⟨d.childN, by rw [hid, ← h.self]; exact hn⟩
      · rw [startedChildren_none fun d hd => hc ⟨d, hd⟩] at hid
        cases hid
  · have hget : (s.work.step ev.data).children[k]? = some ch := by rw [← hw]; exact hget
    rw [startedChildren_snoc, List.mem_append]
    by_cases hb : ev.data.begins = true
    · have ho := hp.offer
      cases hd : ev.data <;> rw [hd] at hb ho hget <;> first | cases hb; done | skip
      case started d =>
        have hnone : s.work.children = ∅ := by rw [ho.2]; rfl
        have hget : s.work.children[k]? = some ch := hget
        rw [hnone, get_empty] at hget
        cases hget
      case forked d =>
        obtain ⟨m, hm, hnum⟩ := ho.2.1.child hget
        exact .inl ⟨m, hm.trans (by rw [ho.1]; exact le_rfl), hnum⟩
    · rcases child_step hp.offer (by simpa using hb) hget with hold | ⟨d, hd, -, hid⟩
      · exact (h.started hold).imp_right .inl
      · exact .inr (.inr (by rw [startedChildren_one hd, hid]; exact List.mem_singleton_self _))

variable {evs : List Event}

theorem Path.owned
    (hp : Path (State.apply x.quote fl) (fun s ev => Promise fl base s ev ∧ ev.data.Named x s) s evs s')
    (h : Owned x execID base l s) : Owned x execID base (l ++ evs) s' :=
  hp.logInvariant (fun _ _ _ _ h hG ha => h.step hG.1 hG.2 ha) h

theorem Settled.inherits (h : Settled fl base s) (hown : s.work.OwnChildren base) (hst : s.status.terminal = false) :
    Inherits base [] s := by
  rcases h with he | ⟨hu, -⟩
  · rw [he.status] at hst
    cases hst
  · exact ⟨fun hget => .inr (hown hget), hu.base_le, hu.live.begun⟩

theorem Path.ownChildren (hp : Path (State.apply x.quote fl) (Promise fl base) s evs s')
    (h : Settled fl base s) (hown : s.work.OwnChildren base) : s'.work.OwnChildren base := by
  by_cases hst : s.status.terminal = true
  · obtain rfl := Path.nil_of_ended hp hst
    rw [hp.eq_of_nil]
    exact hown
  · have := hp.invariant (I := Inherits base []) (fun _ _ _ hI hG ha => hI.step hG ha) (h.inherits hown (by simpa using hst))
    exact fun hget => (this.children hget).resolve_left List.not_mem_nil

/-- The first decision, whatever began it. -/
theorem Begun.owned {req : Request} {t : State} (ha : s.Absent) (h : Begun x fl req s evs t)
    (hset : Settled fl (baseOf [evs]) t) :
    Path (State.apply x.quote fl) (fun s ev => Promise fl (baseOf [evs]) s ev ∧ ev.data.Named x s) s evs t ∧
    t.work.OwnChildren (baseOf [evs]) := by
  cases h with
  | start _ hstarts hp =>
    have hp' := hp.mono fun _ _ h => h.promise
    obtain ⟨ev, rest, d, rfl, hd⟩ := hstarts
    rw [baseOf_first ha (List.cons_ne_nil _ _) hp']
    refine ⟨hp.mono fun _ _ h => ⟨h.promise, h.named⟩, ?_⟩
    cases hp' with
    | @cons _ s₁ _ _ _ guard ok rest' =>
      have hidle : s₁.work.Idle := by
        rw [State.apply_work ok, hd, ha.work]
        exact Work.none_idle
      have hinv : Inherits 0 [] s₁ :=
        ⟨fun hget => (hidle.no_child hget).elim, Nat.zero_le _, by rw [guard.events ok]; exact Nat.succ_pos _⟩
      have := rest'.invariant (I := Inherits 0 []) (fun _ _ _ hI hG ha => hI.step hG ha) hinv
      exact fun {k ch} hget => (this.children hget).resolve_left List.not_mem_nil
  | fork _ _ hforks hp hown =>
    have hnonempty : evs ≠ [] := by obtain ⟨_, _, _, rfl, -⟩ := hforks; exact List.cons_ne_nil _ _
    rw [baseOf_first ha hnonempty (hp.mono fun _ _ h => h.promise)]
    exact ⟨hp.mono fun _ _ h => ⟨h.promise, h.named⟩, hown⟩
  | replaced _ _ hforks hp _ hend =>
    have hnonempty : evs ≠ [] := by obtain ⟨_, _, _, rfl, -⟩ := hforks; exact List.cons_ne_nil _ _
    rw [baseOf_first ha hnonempty (hp.mono fun _ _ h => h.1)]
    refine ⟨hp, fun hget => ?_⟩
    rcases hset with he | ⟨hu, -⟩
    · exact (he.idle.no_child hget).elim
    · rw [hu.live.unended] at hend
      cases hend

theorem baseOf_cons (hne : evs ≠ []) (more : List (List Event)) : baseOf (evs :: more) = baseOf [evs] := by
  cases evs with
  | nil => exact absurd rfl hne
  | cons ev rest => rfl

/-- The first decision of a log and those after it. -/
theorem Reachable.begun (wf : WellFormed fl) {log : List (List Event)} (h : Reachable x fl s log) (hne : log ≠ []) :
    ∃ execID s₀ req evs more t s₁, s₀.Absent ∧ (State.new execID).Alike s₀ ∧ log = evs :: more ∧ Begun x fl req s₀ evs t ∧
    Settled fl (baseOf log) t ∧ t.work.OwnChildren (baseOf log) ∧
    Path (State.apply x.quote fl) (fun s ev => Promise fl (baseOf log) s ev ∧ ev.data.Named x s) s₀ evs t ∧
    Path (State.apply x.quote fl) (Recorded x fl (baseOf log)) t more.flatten s₁ ∧ s₁.Alike s := by
  obtain ⟨execID, s₀, req, now, evs, habs, hnew, hsrc, hok, hevs, hl⟩ := h.first wf hne
  obtain ⟨b, hd⟩ := perform_absent (x := x) wf habs req (hsrc.ok wf) now
  obtain ⟨hp, hset⟩ := hd.wrote hok hevs
  obtain rfl := baseOf_first habs hevs hp
  obtain ⟨more, s₁, rfl, hp₁, ha₁⟩ := hl.recorded wf hset
  have hbegun := first_begun wf habs hsrc hok hevs
  obtain ⟨hp₀, hown⟩ := hbegun.owned habs hset
  have hbase : baseOf ([evs] ++ more) = baseOf [evs] := baseOf_cons hevs more
  rw [hbase]
  exact ⟨execID, s₀, req, evs, more, _, s₁, habs, hnew, rfl, hbegun, hset, hown, hp₀, hp₁, ha₁⟩

/-- Every open child of an execution was started in its own log, under an id of its own. -/
theorem Reachable.owned (wf : WellFormed fl) {log : List (List Event)} (h : Reachable x fl s log) (hne : log ≠ []) :
    Owned x s.execID (baseOf log) log.flatten s ∧ s.work.OwnChildren (baseOf log) := by
  obtain ⟨execID, s₀, req, evs, more, t, s₁, habs, hnew, rfl, hbegun, hset, hown, hp₀, hp₁, ha₁⟩ := h.begun wf hne
  have howned := Path.owned (hp₀.append (hp₁.mono fun _ _ h => ⟨h.promise, h.named⟩)) (Owned.absent habs)
  have hown₁ : s₁.work.OwnChildren (baseOf (evs :: more)) := Path.ownChildren (hp₁.mono fun _ _ h => h.promise) hset hown
  have hid : s.execID = s₁.execID := (show s₁.core.execID = s.core.execID from congrArg State.execID ha₁).symm
  have hwork : s₁.work = s.work := ha₁.work
  refine ⟨⟨rfl, fun id hid' => ?_, fun {k ch} hget => ?_⟩, by rw [← hwork]; exact hown₁⟩
  · obtain ⟨n, hn⟩ := howned.named id (by simpa using hid')
    exact ⟨n, by rw [hn, hid, howned.self]⟩
  · have hget : s₁.children[k]? = some ch := show s₁.work.children[k]? = some ch by rw [hwork]; exact hget
    have := howned.started hget
    simpa using this

end

/-! ## No child is orphaned -/

section
variable {x : Ext} {fl : Flow} {s s' : State} {ev : Event} {l : List Event}

/-- An execution begun by a start: its children, all of them its own, are accounted for. -/
structure Minded (fl : Flow) (l : List Event) (s : State) : Prop where
  accounted : Accounted l s
  sound : s.work.Sound fl
  own : s.work.OwnChildren 0

theorem Minded.new (fl : Flow) (execID : String) : Minded fl [] (State.new execID) where
  accounted :=
    { nodup := List.nodup_nil
      gone := fun hid => (List.not_mem_nil hid).elim
      started := fun hget => (Work.none_idle.no_child hget).elim
      kept := fun _ hev => (List.not_mem_nil hev).elim }
  sound := .of_idle Work.none_idle rfl
  own hget := (Work.none_idle.no_child hget).elim

theorem Minded.step (h : Minded fl l s) (hr : Recorded x fl 0 s ev) (ha : s.apply x.quote fl ev = .ok s') :
    Minded fl (l ++ [ev]) s' := by
  have hw := State.apply_work ha
  have ho := hr.promise.offer
  have hsound : s'.work.Sound fl := hw ▸ h.sound.step ho
  by_cases hc : ∃ d, ev.data = .child d
  · obtain ⟨d, hd⟩ := hc
    refine ⟨h.accounted.child h.own hr.promise hd hw, hsound, fun {k ch} hget => ?_⟩
    rw [hw, hd] at hget
    rcases get_of_insert hget with ⟨-, rfl⟩ | ⟨-, hget⟩
    · rw [hd] at ho
      exact ⟨d.childN, by have := ho.1; omega, ho.2.1⟩
    · exact h.own hget
  · have hc : ∀ d, ev.data ≠ .child d := fun d hd => hc ⟨d, hd⟩
    have hle : s.n ≤ s'.n := by
      show s.n ≤ s'.work.n
      rw [hw]
      by_cases hb : ev.data.begins = true
      · have hf := hr.forkless
        cases hd : ev.data <;> rw [hd] at hb hf <;> first | cases hb; done | exact le_rfl | cases hf
      · exact n_step ho (by simpa using hb)
    refine ⟨h.accounted.other h.sound hr hc hr.forkless hw hle, hsound, fun {k ch} hget => ?_⟩
    rw [hw] at hget
    exact h.own ((children_step ho hr.forkless hc).1 hget).1

/-- When its structure settles, a child has been reported or listed. -/
theorem Minded.settled (h : Minded fl l s) (hr : Recorded x fl 0 s ev) (ha : s.apply x.quote fl ev = .ok s') {e : Event}
    (he : e ∈ l) {d : Event.Child} (hd : e.data = .child d) (hpol : d.policy ≠ .abandon)
    (hset : ev.data.settlesChild d = true) : d.childID ∈ reported (l ++ [ev]) ++ listed (l ++ [ev]) := by
  refine ((h.step hr ha).accounted.kept e (List.mem_append_left _ he) d hd hpol).resolve_right ?_
  rintro ⟨ch, hget, -, how, -⟩
  have hc : ∀ d', ev.data ≠ .child d' := by
    intro d' hd'
    rw [hd'] at hset
    cases hset
  have hget : (s.work.step ev.data).children[d.instanceKey]? = some ch := by rw [← State.apply_work ha]; exact hget
  have ho := hr.promise.offer
  obtain ⟨hold, hkeeps⟩ := (children_step ho hr.forkless hc).1 hget
  cases hp : ev.data <;> rw [hp] at hset hkeeps ho <;> first | cases hset; done | cases hkeeps; done | skip
  case join e => simp_all [Payload.settlesChild, Payload.keepsChild]
  case mapDone e => exact ho _ ch hold (by rw [how]; exact (of_decide_eq_true hset).symm)
  case mapAbort e => simp_all [Payload.settlesChild, Payload.keepsChild]
  case childDone e => simp_all [Payload.settlesChild, Payload.keepsChild]

theorem Reachable.minded (wf : WellFormed fl) {log : List (List Event)} (h : Reachable x fl s log) (hs : Starts log.flatten) :
    ∃ execID s₁, Path (State.apply x.quote fl) (Recorded x fl 0) (State.new execID) log.flatten s₁ := by
  have hne : log ≠ [] := by
    rintro rfl
    obtain ⟨_, _, _, h, -⟩ := hs
    cases h
  obtain ⟨execID, s₀, req, evs, more, t, s₁, habs, hnew, rfl, hbegun, -, -, hp₀, hp₁, -⟩ := h.begun wf hne
  have hnot : ¬Forks evs := by
    rintro ⟨ev, rest, d, rfl, hd⟩
    obtain ⟨ev', rest', d', he, hd'⟩ := hs
    rw [List.flatten_cons, List.cons_append] at he
    cases he
    cases hd.symm.trans hd'
  cases hbegun with
  | start _ hstarts hp =>
    obtain ⟨ev, rest, d, rfl, hd⟩ := hstarts
    have hbase : baseOf ((ev :: rest) :: more) = 0 :=
      (baseOf_cons (List.cons_ne_nil _ _) more).trans
        (baseOf_first habs (List.cons_ne_nil _ _) (hp.mono fun _ _ h => h.promise))
    rw [hbase] at hp₁
    obtain ⟨t', hp', -⟩ := Path.recorded hnew.symm (hp.append hp₁)
    exact ⟨execID, t', hp'⟩
  | fork _ _ hforks _ _ => exact absurd hforks hnot
  | replaced _ _ hforks _ _ _ => exact absurd hforks hnot

/-- **No orphaned child.** In the log of an execution begun by a start, a child is reported or listed at
most once, never both, and has been when its structure settles, unless it was abandoned; what an event
lists is open then. -/
theorem no_orphaned_child (hv : validate x fl = []) {log : List (List Event)} (h : Reachable x fl s log) (hs : Starts log.flatten) :
    (reported log.flatten ++ listed log.flatten).Nodup ∧
    ∃ execID, ∀ pre ev post, log.flatten = pre ++ ev :: post →
      ∃ s₀, replay (State.apply x.quote fl) (State.new execID) pre = .ok s₀ ∧
        (∀ id ∈ ev.data.cancels, id ∈ startedChildren pre ∧
          ∃ (k : String) (ch : ChildState), s₀.children[k]? = some ch ∧ ch.childID = id ∧ ch.policy ≠ .abandon) ∧
        ∀ e ∈ pre, ∀ d, e.data = .child d → d.policy ≠ .abandon → ev.data.settlesChild d = true →
          (reported (pre ++ [ev])).count d.childID + (listed (pre ++ [ev])).count d.childID = 1 := by
  obtain ⟨execID, s₁, hp⟩ := h.minded (wellFormed_of_validate hv) hs
  have hminded : ∀ {evs : List Event} {t : State}, Path (State.apply x.quote fl) (Recorded x fl 0) (State.new execID) evs t →
      Minded fl evs t := fun hp => by
    have := hp.logInvariant (I := Minded fl) (fun _ _ _ _ h hG ha => h.step hG ha) (Minded.new fl execID)
    simpa using this
  refine ⟨(hminded hp).accounted.nodup, execID, fun pre ev post hsplit => ?_⟩
  rw [hsplit] at hp
  obtain ⟨s₀, hpre, hrest⟩ := hp.split
  have hm := hminded hpre
  cases hrest with
  | cons guard ok _ =>
    refine ⟨s₀, hpre.replay, fun id hid => ?_, fun e he d hd hpol hset => ?_⟩
    · obtain ⟨k, ch, hget, rfl, hpol, -⟩ := guard.mem_cancels.1 hid
      obtain ⟨e, he, d, hd, hid⟩ := hm.accounted.started hget
      exact ⟨List.mem_flatMap.2 ⟨e, he, by rw [hd, ← hid]; exact List.mem_singleton_self _⟩, k, ch, hget, rfl, hpol⟩
    · rw [← List.count_append]
      exact List.count_eq_one_of_mem (hm.step guard ok).accounted.nodup (hm.settled guard ok he hd hpol hset)

end

/-- A flow that waits for another. -/
def delegate : Flow :=
  { version := "1", name := "review", nodes := [{ id := "sub", type := .subflow, flow := "audit" }] }

def startedDelegate : Outcome := decide plainExt delegate (State.new "r1") startReview 1

theorem startedDelegate_reachable : Reachable plainExt delegate startedDelegate.state (record [] startedDelegate.events) :=
  (Reachable.new "r1").command startReview 1 (by decide +kernel)

def cancelReview : Command := ⟨"cancel-1", .cancel { reason := "enough" }⟩

/-- The log of the waiting execution, cancelled. -/
def cancelledDelegate : List (List Event) :=
  record (record [] startedDelegate.events) (decide plainExt delegate startedDelegate.state cancelReview 2).events

theorem cancelledDelegate_lists : listed cancelledDelegate.flatten = ["r1-c1"] ∧
    (reported cancelledDelegate.flatten ++ listed cancelledDelegate.flatten).Nodup := by
  refine ⟨by decide +kernel, (@no_orphaned_child plainExt delegate _ (by decide +kernel) _
    (startedDelegate_reachable.command cancelReview 2 (by decide +kernel)) ?_).1⟩
  exact .of_begins rfl rfl

/-! ## Forks -/

section
variable {x : Ext} {fl : Flow} {base : Nat} {s s' : State} {ev : Event} {l : List Event} {execID : String}

/-- Later events of a fork keep to what its first decision kept to. -/
theorem Recorded.spares (h : Recorded x fl base s ev) (hi : Inherits base [] s) : Spares x fl base s ev := by
  refine ⟨h.promise, fun id hid => ?_, h.named⟩
  obtain ⟨k, ch, hget, rfl, -⟩ := h.mem_cancels.1 hid
  exact ⟨⟨k, ch, hget, rfl⟩, (hi.children hget).resolve_left List.not_mem_nil⟩

theorem Path.spares {evs : List Event} (hp : Path (State.apply x.quote fl) (Recorded x fl base) s evs s')
    (hset : Settled fl base s) (hown : s.work.OwnChildren base) :
    Path (State.apply x.quote fl) (Spares x fl base) s evs s' := by
  by_cases hst : s.status.terminal = true
  · obtain rfl := Path.nil_of_ended (hp.mono fun _ _ h => h.promise) hst
    rw [hp.eq_of_nil]
    exact .nil s
  · exact hp.sharpen (I := Inherits base []) (fun _ _ _ hI hG ha => hI.step hG.promise ha) (fun _ _ hI hG => hG.spares hI)
      (hset.inherits hown (by simpa using hst))

/-- What is listed in the log of a fork was started in it. -/
theorem Path.lists_own {evs : List Event} (hp : Path (State.apply x.quote fl) (Spares x fl base) s evs s')
    (h : Owned x execID base l s) {id : String} (hid : id ∈ listed evs) : id ∈ startedChildren (l ++ evs) := by
  induction hp generalizing l with
  | nil => cases hid
  | @cons s s₁ _ ev rest guard ok _ ih =>
    have h₁ := h.step guard.promise guard.named ok
    rw [List.append_cons]
    rcases List.mem_append.1 (show id ∈ ev.data.cancels ++ listed rest from hid) with hid | hid
    · obtain ⟨⟨k, ch, hget, rfl⟩, m, hm, hnum⟩ := guard.lists id hid
      rcases h.started hget with ⟨m', hm', hnum'⟩ | hin
      · have := hnum.inj hnum'
        omega
      · exact List.mem_flatMap.2 (by
          obtain ⟨e, he, hid⟩ := List.mem_flatMap.1 hin
          exact ⟨e, by simp [he], hid⟩)
    · exact ih h₁ hid

theorem startedChildren_append (l l' : List Event) : startedChildren (l ++ l') = startedChildren l ++ startedChildren l' :=
  List.flatMap_append

theorem Reachable.log_ne (wf : WellFormed fl) {log : List (List Event)} (h : Reachable x fl s log) (hex : s.exists = true) :
    log ≠ [] := by
  rintro rfl
  cases h.tracked wf with
  | absent _ habs _ => rw [habs.not_exists] at hex; cases hex
  | present hs hp ha => exact absurd rfl (flatten_ne_of_settled hs hp ha)

/-- Children started by a source, before and after it was forked. -/
theorem Later.started (wf : WellFormed fl) {log log' : List (List Event)} (h : Reachable x fl s log) (hex : s.exists = true)
    (hl : Later x fl s log s' log') :
    (∀ id ∈ startedChildren log'.flatten, ∃ n, id = childID x s.execID n) ∧
      ∀ {k : String} {ch}, s.children[k]? = some ch → ch.childID ∈ startedChildren log'.flatten := by
  obtain ⟨howned, hown⟩ := h.owned wf (h.log_ne wf hex)
  obtain ⟨more, t, rfl, hp, -⟩ := hl.recorded wf ((h.tracked wf).settled hex)
  have howned' := Path.owned (hp.mono fun _ _ h => ⟨h.promise, h.named⟩) howned
  rw [List.flatten_append]
  refine ⟨howned'.named, fun hget => ?_⟩
  rw [startedChildren_append]
  refine List.mem_append_left _ ((howned.started hget).resolve_left ?_)
  rintro ⟨m, hm, hnum⟩
  obtain ⟨m', hm', hnum'⟩ := hown hget
  have := hnum.inj hnum'
  omega

end

/-- **A fork spares its source**, unless its first decision is replaced by a failure that closes the
children it copied. -/
theorem fork_spares_source {x : Ext} {fl : Flow} (hv : validate x fl = []) {src src' : State} {slog slog' : List (List Event)}
    (hsrc : Reachable x fl src slog) (hex : src.exists = true) (hlater : Later x fl src slog src' slog') {execID : String}
    (hids : ∀ n, childID x execID n ≠ childID x src.execID n) {req : Request} (hreq : req.source = some src) {now : Time}
    {evs : List Event} (hok : (req.perform x fl (State.new execID) now).result = .ok evs) (hne : evs ≠ []) {s : State}
    {log : List (List Event)} (hl : Later x fl (req.perform x fl (State.new execID) now).state [evs] s log) :
    (∀ id ∈ listed log.flatten, id ∉ startedChildren slog'.flatten) ↔
      ¬(req.replaces = true ∧ ∃ (k : String) (ch : ChildState), src.children[k]? = some ch ∧ ch.policy ≠ .abandon) := by
  have wf := wellFormed_of_validate hv
  have habs := State.absent_new execID
  have hsourced : req.Sourced x fl := by
    intro src₂ h₂
    cases hreq.symm.trans h₂
    exact ⟨hex, slog, hsrc⟩
  obtain ⟨hnamed, hopen⟩ := hlater.started wf hsrc hex
  obtain ⟨b, hd⟩ := perform_absent (x := x) wf habs req (hsourced.ok wf) now
  obtain ⟨hp, hset⟩ := hd.wrote hok hne
  obtain ⟨more, s₁, rfl, hp₁, -⟩ := hl.recorded wf hset
  have hlog : ([evs] ++ more).flatten = evs ++ more.flatten := by simp
  rw [hlog]
  cases first_begun wf habs hsourced hok hne with
  | start hnone _ _ => cases hreq.symm.trans hnone
  | @fork src₂ first hsome hask _ hfork hown =>
    cases hreq.symm.trans hsome
    refine iff_of_true (fun id hid hin => ?_) fun h => by rw [hask] at h; cases h.1
    obtain rfl : b = src.n :=
      (baseOf_first habs hne hp).symm.trans (baseOf_first habs hne (hfork.mono fun _ _ h => h.promise))
    have hall := (hfork.mono fun _ _ h => h.toSpares).append (Path.spares hp₁ hset hown)
    have hmine := Path.lists_own hall (Owned.absent habs) hid
    have howned := Path.owned (hall.mono fun _ _ h => ⟨h.promise, h.named⟩) (Owned.absent habs)
    obtain ⟨n, hn⟩ := howned.named id hmine
    obtain ⟨m, hm⟩ := hnamed id hin
    have hnum := childID_numbered x execID n
    obtain rfl : n = m := (hn ▸ hnum).inj (hm ▸ childID_numbered x src.execID m)
    exact hids n (hn.symm.trans hm)
  | @replaced src₂ hsome hask _ _ hlist hend =>
    cases hreq.symm.trans hsome
    have hmore : more.flatten = [] := Path.nil_of_ended (hp₁.mono fun _ _ h => h.promise) hend
    rw [hmore, List.append_nil, hlist]
    simp only [hask, true_and]
    constructor
    · rintro hspares ⟨k, ch, hget, hpol⟩
      exact hspares ch.childID (mem_cancelChildren.2 ⟨k, ch, hget, rfl, hpol, List.not_mem_nil⟩) (hopen hget)
    · intro hnone id hid
      obtain ⟨k, ch, hget, -, hpol, -⟩ := mem_cancelChildren.1 hid
      exact absurd ⟨k, ch, hget, hpol⟩ hnone

/-- A fork of the waiting execution. -/
def forkDelegate : Ask := .fork startedDelegate.state "r1" 1 "fork-1" ∅

def delegateFork : Outcome := (Request.ask forkDelegate).perform plainExt delegate (State.new "r2") 2

def oversizedFork : Outcome :=
  (Request.abort forkDelegate 2 "fork-1" "too_large" "decision too large").perform plainExt delegate (State.new "r2") 2

/-- The fork fails with the child of the source in its list. -/
theorem oversized_fork_lists_source :
    validate plainExt delegate = [] ∧
    Reachable plainExt delegate startedDelegate.state (record [] startedDelegate.events) ∧
    listed oversizedFork.events = ["r1-c1"] ∧ startedChildren (record [] startedDelegate.events).flatten = ["r1-c1"] :=
  ⟨by decide +kernel, startedDelegate_reachable, by decide +kernel, by decide +kernel⟩

theorem childID_plain (parent : String) (n : Nat) : childID plainExt parent n = parent ++ "-c" ++ toString n := by
  simp only [childID]
  split <;> rfl

theorem delegateFork_spares : delegateFork.result = .ok delegateFork.events ∧
    ∀ id ∈ listed [delegateFork.events].flatten, id ∉ startedChildren [startedDelegate.events].flatten := by
  have hids : ∀ n, childID plainExt "r2" n ≠ childID plainExt startedDelegate.state.execID n := by
    intro n h
    rw [childID_plain, childID_plain, show startedDelegate.state.execID = "r1" by decide +kernel] at h
    have h := congrArg String.toList h
    simp only [String.toList_append] at h
    exact absurd (List.append_cancel_right h) (by decide)
  have hok : delegateFork.result = .ok delegateFork.events := Outcome.result_events (by decide +kernel)
  refine ⟨hok, (@fork_spares_source plainExt delegate (by decide +kernel) _ _ _ _ startedDelegate_reachable (by decide +kernel) .refl "r2"
    hids (.ask forkDelegate) rfl 2 _ hok (List.ne_nil_of_length_pos (by decide +kernel)) _ _ .refl).2 ?_⟩
  rintro ⟨h, -⟩
  cases h

end Packtrail
