import Packtrail.Reach

/-
# What each event is emitted for

`Packtrail.Walk` says that every event a decision emits keeps its promise. Here each is also tied to
what is open when it is emitted: work that starts takes a free place (alone, a pending branch, the next
item of a map with room for it), work that is scheduled again is the instance that was there before, a
join closes its fan-out with the verdict its branches have reached, an accepted signal or update has an
id that is not remembered. **`Payload.Apt`** collects this, and `Open.Undecided` is what is left behind:
no open fan-out has a verdict.

The programs are walked once more in the order of the source. Nothing here depends on the numbers of
the events or on their acceptance, so the lemmas need only what is open before each statement.
-/

namespace Packtrail

open Replay Emitter

/-! ## What an event is emitted for -/

/-- Why a decision is taken, as far as its events tell. -/
inductive Cause
  | interrupt
  | answer (r : Resumption)
  | fork
  | other

/-- What a resume hands to the task it wakes. -/
def Cmd.ResumeData.answer (p : Cmd.ResumeData) : Resumption := ⟨some p.value.encoded, p.resumer⟩

def CmdData.cause : CmdData → Cause
  | .interrupt _ => .interrupt
  | .resume p => .answer p.answer
  | _ => .other

def Ask.cause : Ask → Cause
  | .command cmd => cmd.data.cause
  | .fork _ _ _ _ _ => .fork

def Request.cause : Request → Cause
  | .ask a | .abort a _ _ _ _ => a.cause
  | .continueAsNew _ _ => .other

/-- The number of items of an open map that may be in flight. -/
def MapWork.limit (r : MapWork) : Int := if r.maxParallel ≤ 0 then defaultMapParallel else r.maxParallel

/-- The place an instance of `node` starts in: alone, as a pending branch, or as the next item of a
map that has room for one more. -/
inductive Place (s : State) (key node owner : String) (index : Nat) (item : Raw) : Prop
  | alone (idle : s.work.Idle) (hkey : key = node) (hindex : index = 0) (howner : owner = "") (hitem : item = none)
  | branch {f : Fan} (hfan : s.fans[owner]? = some f) (hpending : f.branches[node]? = some .pending)
      (hmaps : s.work.maps = ∅) (hkey : key = node) (hindex : index = 0) (hitem : item = none)
  | item {r : MapWork} (hmap : s.work.maps[owner]? = some r) (hfans : s.work.fans = ∅) (hnode : node = owner)
      (hkey : key = itemKey owner index) (hindex : index = r.next) (hitem : item = r.items[index]?) (hsome : item.isSome)
      (hroom : (r.next : Int) - r.done < r.limit)

/-- Nothing is in flight at `key`. -/
structure State.Free (s : State) (key : String) : Prop where
  task : s.tasks[key]? = none
  child : s.children[key]? = none

/-- The branches of a fan-out before any of them was cancelled. -/
def Fan.uncancelled (f : Fan) : Fan :=
  { f with branches := f.branches.map fun _ o => if o = .cancelled then .pending else o }

/-- `d` schedules the instance `t` once more. -/
structure Event.Scheduled.Of (d : Event.Scheduled) (t : Task) : Prop where
  node : d.node = t.node
  owner : d.owner = t.owner
  index : d.index = t.index
  item : d.item = t.item

/-- Join `d` closes fan-out `f` with the verdict of its awaited branches, leaving only children open. -/
structure Event.Join.Closes (fl : Flow) (s : State) (d : Event.Join) (f : Fan) (join : Node) : Prop where
  node : d.node = join.id
  verdict : (tally join.joinKind (fl.waitFor join.id) f.uncancelled).verdict = some d.ok
  succeeded : d.succeeded = (tally join.joinKind (fl.waitFor join.id) f.uncancelled).succeeded
  failed : d.failed = (tally join.joinKind (fl.waitFor join.id) f.uncancelled).failed
  children : ∀ {b : String}, f.branches[b]? = some .pending →
    ∃ ch, s.children[b]? = some ch ∧ ch.owner = d.fanout ∧ ch.node = b
  idle : (s.work.closeFan d.fanout).Idle

/-- No branch was cancelled and the join has no verdict yet. -/
structure Fan.Undecided (fl : Flow) (f : Fan) : Prop where
  uncancelled : ∀ b : String, f.branches[b]? ≠ some .cancelled
  verdict : ∀ join, fl.node f.join = some join → (tally join.joinKind (fl.waitFor join.id) f).verdict = none

def Open.Undecided (fl : Flow) (o : Open) : Prop := ∀ (fan : String) (f : Fan), o.fans[fan]? = some f → f.Undecided fl

/-- No task waits for an answer. -/
def Open.Unasked (o : Open) : Prop := ∀ (k : String) (t : Task), o.tasks[k]? = some t → t.status ≠ .interrupted

/-- What the state and the cause say about an event when it is emitted. -/
def Payload.Apt (cause : Cause) (fl : Flow) (s : State) : Payload → Prop
  | .started _ => cause ≠ .fork
  | .entered d => cause ≠ .interrupt ∧ (s.work.Idle ∨
      (∃ (fan : String) (f : Fan), s.fans[fan]? = some f ∧ f.branches[d.node]? = some .pending ∧ s.Free d.node ∧ s.work.Unasked) ∨
      ∃ n, fl.node d.node = some n ∧ n.type = .join)
  | .scheduled d =>
      (s.Free d.key ∧ Place s d.key d.node d.owner d.index d.item ∧ d.attempt = 1 ∧ d.resume = none ∧ d.resumedBy = "") ∨
      ∃ t, s.tasks[d.key]? = some t ∧ d.Of t ∧
        (t.status ≠ .interrupted ∧ d.resume = t.resume ∧ d.resumedBy = t.resumedBy ∨
          ∃ r, cause = .answer r ∧ t.status = .interrupted ∧ d.attempt = 1 ∧ d.resume = r.value ∧ d.resumedBy = r.resumer)
  | .nodeDone _ | .nodeFail _ => s.work.Undecided fl
  | .interrupted _ => cause = .interrupt
  | .child d => (s.Free d.instanceKey ∧ ∃ item, Place s d.instanceKey d.node d.owner d.index item) ∨
      cause = .fork ∧ ∃ ch, s.children[d.instanceKey]? = some ch ∧ ch.node = d.node ∧ ch.owner = d.owner ∧ ch.index = d.index
  | .fanout d => s.work.Idle ∧ fl.joinOf d.node = some d.join ∧ ∃ n, fl.node d.node = some n ∧ n.branches = d.branches
  | .join d => ∃ f join, s.fans[d.fanout]? = some f ∧ fl.node f.join = some join ∧ d.Closes fl s f join
  | .map d => s.work.Idle ∧ ∃ n, fl.node d.node = some n ∧ n.maxParallel = d.maxParallel
  | .mapDone d => (s.work.step (.mapDone d)).Idle ∧ ∃ r, s.work.maps[d.node]? = some r ∧ r.done = r.items.length
  | .mapAbort d => (s.work.step (.mapAbort d)).Idle
  | .childDone d => s.work.Undecided fl ∧ ∃ ch, s.children[d.instanceKey]? = some ch ∧ ch.node = d.node
  | .signal d => s.signalIDs[d.id]? = none
  | .update d => cause = .fork ∨ s.updateIDs[d.id]? = none
  | _ => True

variable {fl : Flow}

theorem Open.Undecided.of_empty {o : Open} (h : o.fans = ∅) : o.Undecided fl := by
  intro fan f hf
  rw [h, get_empty] at hf
  cases hf

theorem Open.Undecided.of_fans {o o' : Open} (h : o.Undecided fl) (he : o'.fans = o.fans) : o'.Undecided fl := by
  intro fan f hf
  rw [he] at hf
  exact h fan f hf

theorem State.Ended.undecided {s : State} (h : s.Ended) : s.work.Undecided fl := .of_empty h.idle.fans

/-! ## Statements -/

section
variable {c : Ctx} {cause : Cause} {s : State}

/-- Every event of program `m` is apt, and `Q` holds once it has run. -/
def Says {α : Type} (c : Ctx) (cause : Cause) (m : DecM α) (s : State) (Q : α → State → Prop) : Prop :=
  Runs c.apply (fun s ev => ev.data.Apt cause c.fl s) (fun _ => True) m s Q

variable {p : Payload} {G : State → Event → Prop} {n : Node} {key owner : String} {index : Nat} {item : Raw} {k : String → DecM Unit}
variable {f : Fan}

theorem says_emit {Q : Unit → State → Prop} (h : p.Apt cause c.fl s)
    (hQ : ∀ s', s'.work = s.work.step p → Q () s') : Says c cause (emit c p) s Q :=
  Runs.emitAny h (fun s' happ => hQ s' (State.apply_work happ)) fun _ _ => trivial

theorem says_bind {α : Type} {f : Unit → DecM α} {R : α → State → Prop} (h : p.Apt cause c.fl s)
    (hf : ∀ s', s'.work = s.work.step p → Says c cause (f ()) s' R) : Says c cause (emit c p >>= f) s R :=
  Runs.bind (says_emit h fun _ hw => hw) fun _ s' hw => hf s' hw

/-- The same, while the execution goes on. -/
theorem says_live {α : Type} {f : Unit → DecM α} {R : α → State → Prop} (h : p.Apt cause c.fl s)
    (hp : p.plain = true) (hl : s.Live) (hf : ∀ s', s'.Live → s'.work = s.work.step p → Says c cause (f ()) s' R) :
    Says c cause (emit c p >>= f) s R := by
  refine Runs.bind (Q := fun _ s' => s'.Live ∧ s'.work = s.work.step p) ?_ fun _ s' hs => hf s' hs.1 hs.2
  exact Runs.emitAny h (fun s' happ => ⟨(State.apply_plain hp happ).2 hl, State.apply_work happ⟩) fun _ _ => trivial

/-- The last event of an execution, whatever is asked of it. -/
theorem ends_emit (hp : p.terminal = true) (hG : G s (c.event p s)) :
    Runs c.apply G (fun _ => True) (emit c p) s fun _ s' => s'.Ended := by
  refine Runs.emitAny hG (fun s' happ => ?_) fun _ _ => trivial
  obtain ⟨-, s₁, hs₁, rfl⟩ := State.apply_ok.1 happ
  have hw := State.apply_work happ
  refine ⟨Nat.succ_pos _, ?_, ?_⟩
  · cases p <;> first | cases hp; done | (cases hs₁; rfl)
  · rw [hw]
    cases p <;> first | cases hp; done | exact ⟨rfl, rfl, rfl, rfl, rfl⟩

theorem fail_emits (hG : ∀ d, G s (c.event (.failed d) s)) (reason msg node : String) :
    Runs c.apply G (fun _ => True) (fail c reason msg node) s fun _ s' => s'.Ended :=
  Runs.getSt (Runs.getAux fun _ => ends_emit rfl (hG _))

theorem says_end (hp : p.terminal = true) : Says c cause (emit c p) s fun _ s' => s'.Ended := by
  refine ends_emit hp ?_
  show p.Apt cause c.fl s
  cases p <;> first | cases hp; done | trivial

theorem fail_said (reason msg node : String) : Says c cause (fail c reason msg node) s fun _ s' => s'.Ended :=
  fail_emits (fun _ => trivial) reason msg node

theorem fail_undecided (reason msg node : String) :
    Says c cause (fail c reason msg node) s fun _ s' => s'.work.Undecided c.fl :=
  (fail_said reason msg node).mono fun _ _ he => he.undecided

theorem complete0_said : Says c cause (complete0 c) s fun _ s' => s'.work.Undecided c.fl := by
  refine Runs.getSt ?_
  have done : ∀ out, Says c cause (emit c (.completed { output := out })) s fun _ s' => s'.work.Undecided c.fl :=
    fun _ => (says_end rfl).mono fun _ _ he => he.undecided
  split
  · split
    · exact fail_undecided _ _ _
    · split
      · exact fail_undecided _ _ _
      · split
        · exact done _
        · split
          · exact done _
          · exact fail_undecided _ _ _
  · split
    · exact done _
    · exact done _

theorem timerAt_said (p : TimerPurpose) (after : Int) (key node : String) (gen attempt : Nat) :
    Says c cause (timerAt c p after key node gen attempt) s fun _ s' => s'.work.toOpen = s.work.toOpen :=
  Runs.getSt (says_emit trivial fun s' hw => by rw [hw]; rfl)

theorem schedule_said {rs : Resumption} {gen attempt : Nat}
    (h : (Payload.scheduled (scheduledOf s n key owner index item rs gen attempt)).Apt cause c.fl s) :
    Says c cause (schedule c n key owner index item rs gen attempt) s fun _ s' =>
    s'.work.toOpen = s.work.putTask (s.work.taskOf (scheduledOf s n key owner index item rs gen attempt)) := by
  refine Runs.getSt (says_bind h fun s₁ hw => ?_)
  have hopen : s₁.work.toOpen = s.work.putTask (s.work.taskOf (scheduledOf s n key owner index item rs gen attempt)) := by
    rw [hw]; rfl
  split
  · exact (timerAt_said _ _ _ _ _ _).mono fun _ s₂ ho => ho.trans hopen
  · exact Runs.pure hopen

/-- A child is started, or its input fails the execution. -/
theorem startChild_any
    (hkey : key = n.id ∨ key ≠ "") (hfail : ∀ d, G s (c.event (.failed d) s))
    (h : ∀ d : Event.Child, d.node = n.id → d.instanceKey = key → d.owner = owner → d.index = index →
    G s (c.event (.child d) s)) :
    Runs c.apply G (fun _ => True) (startChild c n key owner index item) s fun _ s' => s'.Ended ∨
    ∃ d : Event.Child, d.node = n.id ∧ d.instanceKey = key ∧ d.owner = owner ∧ d.index = index ∧
    c.apply s (c.event (.child d) s) = .ok s' := by
  have started : ∀ {d : Event.Child} {s' : State}, c.apply s (c.event (.child d) s) = .ok s' → d.node = n.id →
      d.instanceKey = key → d.owner = owner → d.index = index → s'.Ended ∨ ∃ d : Event.Child, d.node = n.id ∧
        d.instanceKey = key ∧ d.owner = owner ∧ d.index = index ∧ c.apply s (c.event (.child d) s) = .ok s' :=
    fun happ h1 h2 h3 h4 => .inr ⟨_, h1, h2, h3, h4, happ⟩
  refine Runs.getSt ?_
  simp only
  split
  · exact (fail_emits hfail _ _ _).mono fun _ _ he => .inl he
  · split
    · have hk : (if (if key = n.id then "" else key) = "" then n.id else if key = n.id then "" else key) = key := by
        by_cases he : key = n.id
        · simp [he]
        · have hne : key ≠ "" := hkey.resolve_left he
          simp [he, hne]
      exact Runs.emitAny (h _ rfl hk rfl rfl) (fun s' happ => started happ rfl hk rfl rfl) fun _ _ => trivial
    · exact (fail_emits hfail _ _ _).mono fun _ _ he => .inl he

theorem startChild_said (hkey : key = n.id ∨ key ≠ "")
    (h : ∀ d : Event.Child, d.node = n.id → d.instanceKey = key → d.owner = owner → d.index = index →
    (Payload.child d).Apt cause c.fl s) :
    Says c cause (startChild c n key owner index item) s fun _ s' => s'.Ended ∨
    ∃ ch : ChildState, ch.node = n.id ∧ ch.owner = owner ∧ ch.index = index ∧ s'.work.toOpen = s.work.putChild key ch := by
  refine (startChild_any hkey (fun _ => trivial) h).mono fun _ s' hs => hs.imp_right ?_
  rintro ⟨d, hnode, hk, howner, hindex, happ⟩
  refine ⟨⟨d.childID, d.flow, d.policy, d.node, d.owner, d.index⟩, hnode, howner, hindex, ?_⟩
  rw [State.apply_work happ]
  show (s.work.startChild d).toOpen = _
  simp only [Work.startChild, Work.putChild, hk]

/-! ## Entering and leaving nodes -/

/-- What the rest of the recursion does with nothing open. -/
def Goes (c : Ctx) (cause : Cause) (k : String → DecM Unit) : Prop :=
  ∀ {s : State} {id : String}, s.work.Idle → Says c cause (k id) s fun _ s' => s'.work.Undecided c.fl

theorem advance_said (hk : Goes c cause k) {dyn : String} (hi : s.work.Idle) :
    Says c cause (advance c k n dyn) s fun _ s' => s'.work.Undecided c.fl := by
  unfold advance
  by_cases hne : (if dyn = "" then n.next else dyn) = ""
  · rw [if_pos hne]
    exact complete0_said
  · rw [if_neg hne]
    exact hk hi

theorem Open.Idle.free (h : s.work.Idle) (key : String) : s.Free key := by
  constructor
  · show s.work.tasks[key]? = none
    rw [h.tasks, get_empty]
  · show s.work.children[key]? = none
    rw [h.children, get_empty]

theorem enterTask_said (hi : s.work.Idle) :
    Says c cause (schedule c n n.id "" 0 none {} 0 1) s fun _ s' => s'.work.Undecided c.fl := by
  refine (schedule_said ?_).mono fun _ s' ho => .of_empty ?_
  · exact .inl ⟨hi.free _, .alone hi rfl rfl rfl rfl, rfl, rfl, rfl⟩
  · rw [ho]; exact hi.fans

theorem enterSubflow_said (hi : s.work.Idle) :
    Says c cause (startChild c n n.id "" 0 none) s fun _ s' => s'.work.Undecided c.fl := by
  refine (startChild_said (.inl rfl) fun d hnode hkey howner hindex => ?_).mono fun _ s' h => ?_
  · exact .inl ⟨hi.free _, none, .alone hi (hkey.trans hnode.symm) hindex howner rfl⟩
  · rcases h with he | ⟨ch, -, -, -, ho⟩
    · exact he.undecided
    · exact .of_empty (by rw [ho]; exact hi.fans)

/-! ### Awaits -/

theorem consume_said (hk : Goes c cause k)
    (hrest : ({ s.work.toOpen with awaits := ∅ } : Open).Idle) (hkey : ∀ k : String, k ∈ s.work.awaits → k = n.id) :
    Says c cause (consume c k n) s fun _ s' => s'.work.Undecided c.fl := by
  refine Runs.getSt ?_
  split
  · exact Runs.pure (.of_empty hrest.fans)
  · refine says_bind trivial fun s' hw => advance_said hk ?_
    rw [hw]
    exact ⟨hrest.tasks, hrest.fans, hrest.maps, erase_eq_empty hkey, hrest.children⟩

theorem await_said (hk : Goes c cause k)
    (hrest : ({ s.work.toOpen with awaits := ∅ } : Open).Idle) (hkey : ∀ k : String, k ∈ s.work.awaits → k = n.id) :
    Says c cause (await c k n) s fun _ s' => s'.work.Undecided c.fl := by
  refine Runs.getSt (says_bind trivial fun s₁ hw₁ => says_bind trivial fun s₂ hw₂ => ?_)
  have hopen : s₂.work.toOpen =
      { s.work.toOpen with awaits := s.work.awaits.insert n.id ⟨n.signal, timerID s.alloc⟩ } := by rw [hw₂, hw₁]; rfl
  refine consume_said hk (by rw [hopen]; exact hrest) fun k hmem => ?_
  rw [hopen] at hmem
  rcases Std.ExtTreeMap.mem_insert.1 hmem with he | hmem
  · exact (Std.LawfulEqCmp.compare_eq_iff_eq.1 he).symm
  · exact hkey k hmem

theorem enterAwait_said (hk : Goes c cause k) (hi : s.work.Idle) :
    Says c cause (await c k n) s fun _ s' => s'.work.Undecided c.fl := by
  refine await_said hk ⟨hi.tasks, hi.fans, hi.maps, rfl, hi.children⟩ fun k hmem => ?_
  rw [hi.awaits] at hmem
  exact absurd hmem Std.ExtTreeMap.not_mem_empty

/-! ### Choices -/

theorem choose_said (hk : Goes c cause k) (hi : s.work.Idle) :
    Says c cause (choose c k n) s fun _ s' => s'.work.Undecided c.fl := by
  refine Runs.getSt ?_
  split
  · refine says_bind trivial fun s' hw => ?_
    split
    · exact complete0_said
    · exact hk (by rw [hw]; exact hi)
  · exact says_bind trivial fun s' _ => fail_undecided _ _ _
  · exact Runs.throw trivial

/-! ### Fan-outs -/

theorem Open.FanOpen.free {fan b : String} {bs : List String} (h : s.work.FanOpen c.fl fan f (b :: bs)) :
    s.Free b := by
  constructor
  · by_contra hne
    obtain ⟨t, ht⟩ := Option.ne_none_iff_exists'.1 hne
    exact (h.task ht).2.2.2.1 List.mem_cons_self
  · by_contra hne
    obtain ⟨ch, hch⟩ := Option.ne_none_iff_exists'.1 hne
    exact (h.child hch).2.2.2.1 List.mem_cons_self

theorem Open.Unasked.put {w : Work} (h : w.Unasked) {t : Task} (ht : t.status ≠ .interrupted) : (w.putTask t).Unasked := by
  intro k t' hget
  rcases get_of_insert hget with ⟨-, rfl⟩ | ⟨-, hget⟩
  · exact ht
  · exact h k t' hget

theorem startBranches_said (wf : WellFormed c.fl) (hc : cause ≠ .interrupt) {fan : String} :
    ∀ {bs : List String} {s : State}, s.work.FanOpen c.fl fan f bs → s.work.Unasked → bs.Nodup →
    (∀ b ∈ bs, f.branches[b]? = some .pending) →
    Says c cause (startBranches c fan bs) s fun _ s' => s'.Ended ∨ s'.work.fans = single fan f
  | [], s, hf, _, _, _ => Runs.pure (.inr hf.fans)
  | b :: bs, s, hf, hun, hnd, hpend => by
    obtain ⟨fn, hfn, hft, hbr⟩ := hf.type
    have hpb := hpend b (by simp)
    obtain ⟨bn, hbn, hty⟩ := (wf.fan hfn hft).branch b ((hbr b).1 (mem_of_get hpb))
    obtain rfl : bn.id = b := Flow.node_id hbn
    rw [List.nodup_cons] at hnd
    have hget : s.fans[fan]? = some f := by show s.work.fans[fan]? = _; rw [hf.fans, get_single_self]
    unfold startBranches
    refine says_bind ⟨hc, .inr (.inl ⟨fan, f, hget, hpb, hf.free, hun⟩)⟩ fun s₁ hw₁ => ?_
    have hf₁ : s₁.work.FanOpen c.fl fan f (bn.id :: bs) := by rw [hw₁]; exact hf
    have hun₁ : s₁.work.Unasked := by rw [hw₁]; exact hun
    have hget₁ : s₁.fans[fan]? = some f := by show s₁.work.fans[fan]? = _; rw [hf₁.fans, get_single_self]
    simp only [hbn]
    have rest : ∀ s₂ : State, (s₂.Ended ∨ s₂.work.FanOpen c.fl fan f bs ∧ s₂.work.Unasked) →
        Says c cause (do let s ← getSt; if s.status.terminal then pure () else startBranches c fan bs) s₂
          fun _ s' => s'.Ended ∨ s'.work.fans = single fan f := by
      intro s₂ h₂
      refine Runs.getSt ?_
      split
      · exact Runs.pure (h₂.imp_right fun h => h.1.fans)
      · rename_i hlive
        obtain ⟨hf₂, hun₂⟩ := h₂.resolve_left fun he => hlive he.status
        exact startBranches_said wf hc hf₂ hun₂ hnd.2 fun b' hb' => hpend b' (List.mem_cons_of_mem _ hb')
    split
    · rename_i hsub
      refine (startChild_said (.inl rfl) fun d hnode hkey howner hindex => ?_).bind fun _ s' h => rest s' (h.imp_right ?_)
      · refine .inl ⟨hkey ▸ hf₁.free, none, ?_⟩
        exact .branch (howner ▸ hget₁) (hnode ▸ hpb) hf₁.rest.maps (hkey.trans hnode.symm) hindex rfl
      · rintro ⟨ch, hnode, howner, -, ho⟩
        exact ⟨hf₁.hire ho howner hnode hpb hnd.1 ⟨bn, hbn, hsub⟩, by rw [ho]; exact hun₁⟩
    · rename_i hsub
      refine (schedule_said (.inl ⟨hf₁.free, .branch hget₁ hpb hf₁.rest.maps rfl rfl rfl, rfl, rfl, rfl⟩)).bind
        fun _ s' ho => rest s' (.inr ⟨hf₁.put ho rfl rfl rfl hpb hnd.1 ⟨bn, hbn, hty.resolve_right hsub⟩, ?_⟩)
      rw [ho]
      exact hun₁.put fun h => by cases h

/-- A join whose branches are all pending has no verdict. -/
theorem tally_open {fl : Flow} {join : Node} (hok : JoinOk fl join) (hne : fl.waitFor join.id ≠ [])
    (hall : ∀ b ∈ fl.waitFor join.id, branchOutcome f b = .pending) :
    (tally join.joinKind (fl.waitFor join.id) f).verdict = none := by
  have hnone : ((fl.waitFor join.id).filter fun b => branchOutcome f b = .completed) = [] := by
    rw [List.filter_eq_nil_iff]
    intro b hb
    simp [hall b hb]
  have hpend : ((fl.waitFor join.id).filter fun b => branchOutcome f b = .pending) = fl.waitFor join.id := by
    rw [List.filter_eq_self]
    intro b hb
    simp [hall b hb]
  have hpos : 0 < (fl.waitFor join.id).length := List.length_pos_iff.2 hne
  have count : ∀ need : Int, 0 < need → need ≤ (fl.waitFor join.id).length →
      (if need ≤ ((0 : Nat) : Int) then some true
       else if need ≤ ((0 : Nat) : Int) + ((fl.waitFor join.id).length : Nat) then none else some false) = none := by
    intro need h0 hle
    rw [if_neg (by omega), if_pos (by omega)]
  unfold tally
  simp only [hnone, hpend, List.length_nil]
  cases hk : join.joinKind with
  | min q => exact if_pos hpos
  | any => exact count 1 (by omega) (by omega)
  | all => exact count (fl.waitFor join.id).length (by omega) le_rfl
  | quorum q => exact count q (hok.quorum hk).1 (hok.quorum hk).2
  | unknown u => exact absurd hk (hok.known u)

theorem fanout_said (ck : Checked c.fl) (hc : cause ≠ .interrupt) (hn : c.fl.node n.id = some n)
    (ht : n.type = .fanout) (hi : s.work.Idle) :
    Says c cause (fanout c n) s fun _ s' => s'.work.Undecided c.fl := by
  have hok := ck.fan hn ht
  obtain ⟨jn, hjo, hjn, hjt, hwne, hwsub⟩ := hok.join
  unfold fanout
  rw [hjo]
  refine says_bind ⟨hi, hjo, n, hn, rfl⟩ fun s₁ hw₁ => ?_
  obtain ⟨f, hf⟩ : ∃ f : Fan, f = ⟨jn.id, n.branches.foldl (fun m b => m.insert b .pending) ∅⟩ := ⟨_, rfl⟩
  have hjoin : f.join = jn.id := by rw [hf]
  have hall : ∀ b : String, f.branches[b]? = if b ∈ n.branches then some .pending else none := fun b => by
    rw [hf]
    exact get_insertAll.trans (by rw [get_empty])
  have hfan : s₁.work.FanOpen c.fl n.id f n.branches := by
    rw [hw₁]
    refine ⟨?_, ?_, ⟨n, hn, ht, fun b => ?_⟩, by rw [hjoin]; exact hjo, fun {k t} hget => ?_, fun {k ch} hget => ?_,
      fun {b} hpend hnot => ?_⟩
    · show s.work.fans.insert _ _ = _
      rw [hi.fans, hf]
      rfl
    · exact ⟨rfl, rfl, hi.maps, hi.awaits, rfl⟩
    · rw [Std.ExtTreeMap.mem_iff_isSome_getElem?, hall b]
      split <;> simp_all
    · exact (hi.no_task hget).elim
    · exact (hi.no_child hget).elim
    · rw [hall b, if_neg hnot] at hpend
      cases hpend
  have hun : s₁.work.Unasked := by
    rw [hw₁]
    exact fun k t hget => (hi.no_task hget).elim
  refine (startBranches_said ck.toWellFormed hc hfan hun hok.nodup fun b hb => (hall b).trans (if_pos hb)).mono
    fun _ s' h => ?_
  rcases h with he | hfans
  · exact he.undecided
  · intro fan f' hget
    rw [hfans] at hget
    obtain ⟨rfl, rfl⟩ := get_of_single hget
    refine ⟨fun b hb => ?_, fun join hj => ?_⟩
    · rw [hall b] at hb
      split at hb <;> cases hb
    · rw [hjoin, hjn] at hj
      cases hj
      refine tally_open (ck.joins hjn hjt) hwne fun b hb => ?_
      unfold branchOutcome
      rw [Std.ExtTreeMap.getD_eq_getD_getElem?, hall b, if_pos (hwsub b hb)]
      rfl

/-! ### Maps -/

theorem Open.MapOpen.free {m : String} {r : MapWork} {lost : Nat} (h : s.work.MapOpen c.fl m r lost) :
    s.Free (itemKey m r.next) := by
  constructor
  · by_contra hne
    obtain ⟨t, ht⟩ := Option.ne_none_iff_exists'.1 hne
    obtain ⟨-, -, hidx, hkey, -⟩ := h.task ht
    have := itemKey_inj hkey
    omega
  · exact h.next_free

theorem mapLoop_said (hn : c.fl.node n.id = some n) {items : List Json} {limit : Int} :
    ∀ {rounds : Nat} {s : State} {r : MapWork}, s.work.MapOpen c.fl n.id r 0 → r.items = items → limit = r.limit →
    Says c cause (mapLoop c n items limit rounds) s fun _ s' => s'.work.Undecided c.fl
  | 0, s, r, hm, _, _ => Runs.pure (.of_empty hm.rest.fans)
  | rounds + 1, s, r, hm, hitems, hlim => by
    unfold mapLoop
    refine Runs.getSt ?_
    obtain ⟨run, hrun, rfl⟩ := State.maps_of_work hm.maps
    have hget : s.work.maps[n.id]? = some run.work := by rw [hm.maps, get_single_self]
    have rest : ∀ s₂ : State, (s₂.Ended ∨ s₂.work.MapOpen c.fl n.id { run.work with next := run.next + 1 } 0) →
        Says c cause (do let s ← getSt; if s.status.terminal then pure () else mapLoop c n items limit rounds) s₂
          fun _ s' => s'.work.Undecided c.fl := by
      intro s₂ h₂
      refine Runs.getSt ?_
      split
      · exact Runs.pure (h₂.elim State.Ended.undecided fun h => .of_empty h.rest.fans)
      · rename_i hlive
        exact mapLoop_said hn (h₂.resolve_left fun he => hlive he.status) hitems hlim
    simp only [hrun]
    split
    · rename_i hroom
      rw [hlim] at hroom
      split
      · exact Runs.pure (.of_empty hm.rest.fans)
      · rename_i item hitem
        have hitem' : run.items[run.next]? = some item := by
          rw [← hitem, ← hitems]
          rfl
        have hlt : run.work.next < run.work.items.length := (List.getElem?_eq_some_iff.1 hitem').1
        split
        · rename_i hflow
          refine (startChild_said (.inr (itemKey_ne_empty _ _)) fun d hnode hkey howner hindex => ?_).bind
            fun _ s' h => rest s' (h.imp_right ?_)
          · refine .inl ⟨hkey ▸ hm.free, some item, ?_⟩
            rw [hnode, hkey, howner, hindex]
            exact .item hget hm.rest.fans rfl rfl rfl hitem'.symm rfl hroom
          · rintro ⟨ch, hnode, howner, hidx, ho⟩
            exact hm.hire ho howner hnode hidx hlt ⟨n, hn, hflow⟩
        · rename_i hflow
          refine (schedule_said (.inl ⟨hm.free, ?_, rfl, rfl, rfl⟩)).bind fun _ s' ho => rest s' (.inr ?_)
          · exact .item hget hm.rest.fans rfl rfl rfl hitem'.symm rfl hroom
          · exact hm.put ho rfl rfl rfl rfl hlt ⟨n, hn, not_not.1 hflow⟩
    · exact Runs.pure (.of_empty hm.rest.fans)

theorem mapProgress_said (hk : Goes c cause k) (hn : c.fl.node n.id = some n)
    {r : MapWork} (hm : s.work.MapOpen c.fl n.id r 0) :
    Says c cause (mapProgress c k n) s fun _ s' => s'.work.Undecided c.fl := by
  refine Runs.getSt ?_
  obtain ⟨run, hrun, rfl⟩ := State.maps_of_work hm.maps
  have hcount : run.done + s.work.tasks.size + s.work.children.size + 0 = run.next := hm.count
  have hnext : run.next ≤ run.items.length := hm.next_le
  simp only [hrun]
  split
  · rename_i hdone
    have hzero : s.work.tasks.size = 0 ∧ s.work.children.size = 0 := by omega
    have hidle : ∀ d : Event.MapDone, d.node = n.id → (s.work.step (.mapDone d)).Idle := by
      intro d hd
      refine ⟨?_, hm.rest.fans, ?_, hm.rest.awaits, ?_⟩
      · exact Std.ExtTreeMap.eq_empty_iff_size_eq_zero.2 hzero.1
      · show s.work.maps.erase d.node = ∅
        rw [hd, hm.maps, single_erase]
      · exact Std.ExtTreeMap.eq_empty_iff_size_eq_zero.2 hzero.2
    refine says_bind ⟨hidle _ rfl, run.work, by rw [hm.maps, get_single_self], hdone⟩ fun s' hw' => advance_said hk ?_
    rw [hw']
    exact hidle _ rfl
  · exact mapLoop_said hn hm rfl rfl

theorem mapStart_said (hk : Goes c cause k) (hn : c.fl.node n.id = some n)
    (ht : n.type = .map) (hi : s.work.Idle) : Says c cause (mapStart c k n) s fun _ s' => s'.work.Undecided c.fl := by
  refine Runs.getSt ?_
  split
  · exact fail_undecided _ _ _
  · split
    · exact fail_undecided _ _ _
    · split
      · exact Runs.throw trivial
      · rename_i items _
        refine says_bind ⟨hi, n, hn, rfl⟩ fun s' hw => ?_
        refine mapProgress_said (r := ⟨items, items.length, 0, 0, n.maxParallel⟩) hk hn ?_
        rw [hw]
        refine ⟨?_, ⟨rfl, hi.fans, rfl, hi.awaits, rfl⟩, rfl, Nat.zero_le _, ⟨n, hn, ht⟩,
          fun hget => (hi.no_task hget).elim, fun hget => (hi.no_child hget).elim, ?_⟩
        · show s.work.maps.insert _ _ = _
          rw [hi.maps]
          rfl
        · show 0 + s.work.tasks.size + s.work.children.size + 0 = 0
          rw [hi.tasks, hi.children]
          rfl

/-! ### The recursion -/

theorem enterStep_said (ck : Checked c.fl) (hc : cause ≠ .interrupt) (hk : Goes c cause k) :
    Goes c cause (enterStep c k) := by
  intro s id hi
  refine Runs.getSt ?_
  split
  · exact fail_undecided _ _ _
  · rename_i n hn
    obtain rfl : n.id = id := Flow.node_id hn
    split
    · exact fail_undecided _ _ _
    · refine says_bind ⟨hc, .inl hi⟩ fun s' hw => ?_
      have hi' : s'.work.Idle := by rw [hw]; exact hi
      cases ht : n.type with
      | task => exact enterTask_said hi'
      | choice => exact choose_said hk hi'
      | fanout => exact fanout_said ck hc hn ht hi'
      | await => exact enterAwait_said hk hi'
      | map => exact mapStart_said hk hn ht hi'
      | subflow => exact enterSubflow_said hi'
      | join => exact fail_undecided _ _ _
      | unknown t => exact fail_undecided _ _ _

theorem enterFuel_said (ck : Checked c.fl) (hc : cause ≠ .interrupt) : ∀ fuel, Goes c cause (enterFuel c fuel)
  | 0 => enterStep_said ck hc fun _ => Runs.throw trivial
  | fuel + 1 => enterStep_said ck hc (enterFuel_said ck hc fuel)

theorem enter_said (ck : Checked c.fl) (hc : cause ≠ .interrupt) : Goes c cause (enter c) :=
  fun hi => Runs.getSt (enterFuel_said ck hc _ hi)

end

end Packtrail
