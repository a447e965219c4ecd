import Packtrail.Emission

/-
# What the events of a command are emitted for

Continues `Packtrail.Emission` with the programs that settle tasks and children, react to commands and
begin an execution. A join closes only with a verdict, and a decision that leaves its fan-out open
leaves it without one. **`Reachable.apt`** carries both through whole runs.
-/

namespace Packtrail

open Replay Emitter

section
variable {c : Ctx} {cause : Cause} {s : State}

/-! ## Settling -/

variable {n : Node} {w : Work} {owner : String} {f : Fan} {t : Task}

theorem nodeOf_said {id : String} {α : Type} {f : Node → DecM α} {Q : α → State → Prop}
    (hn : c.fl.node id = some n) (h : Says c cause (f n) s Q) : Says c cause (nodeOf c id >>= f) s Q := by
  unfold nodeOf
  rw [hn]
  exact h

/-- The fan-outs once the branches `keys` of `owner` are cancelled. -/
def cancelBranches (fans : SMap Fan) (owner : String) (keys : List String) : SMap Fan :=
  match fans[owner]? with
  | some f => fans.insert owner { f with branches := keys.foldl (fun m b => m.insert b .cancelled) f.branches }
  | none => fans

theorem cancelBranches_cons {key : String} {keys : List String} :
    cancelBranches (w.settleFans owner key .cancelled) owner keys = cancelBranches w.fans owner (key :: keys) := by
  unfold cancelBranches Work.settleFans
  cases hf : w.fans[owner]? with
  | none => simp only [hf]
  | some f =>
    simp only [Std.ExtTreeMap.getElem?_insert_self, List.foldl_cons]
    apply Std.ExtTreeMap.ext_getElem?
    intro a
    simp only [get_insert]
    split <;> rfl

theorem cancelTasks_said {reason : String} : ∀ {keys : List String} {s : State}, keys.Nodup →
    (∀ k : String, k ∈ s.tasks ↔ k ∈ keys) →
    (∀ (k : String) (t : Task), s.tasks[k]? = some t → t.owner = owner ∧ (owner ∈ s.fans → t.node = k)) →
    Says c cause (cancelTasks c owner reason keys) s fun _ s' => s'.work.toOpen =
    { s.work.toOpen with tasks := ∅, fans := cancelBranches s.work.fans owner keys }
  | [], s, _, hkeys, _ => by
    have hnone : s.work.tasks = ∅ := eq_empty_of_get fun k => by
      cases hget : s.work.tasks[k]? with
      | none => rfl
      | some t => exact absurd ((hkeys k).1 (mem_of_get hget)) (by simp)
    have hfans : cancelBranches s.work.fans owner [] = s.work.fans := by
      unfold cancelBranches
      cases hf : s.work.fans[owner]? with
      | none => rfl
      | some f =>
        apply Std.ExtTreeMap.ext_getElem?
        intro a
        simp only [List.foldl_nil, get_insert]
        split
        · rename_i he; rw [← he, hf]
        · rfl
    refine Runs.pure ?_
    rw [hfans, ← hnone]
  | key :: keys, s, hnd, hkeys, howner => by
    obtain ⟨t, ht⟩ := get_of_mem ((hkeys key).2 List.mem_cons_self)
    obtain ⟨hown, hnode⟩ := howner key t ht
    rw [List.nodup_cons] at hnd
    unfold cancelTasks
    refine Runs.getSt ?_
    simp only [ht, hown, if_true]
    refine says_bind trivial fun s₁ hw₁ => ?_
    have hset : s₁.work = { s.work with tasks := s.work.tasks.erase key, fans := s.work.settleFans t.owner t.node .cancelled } := by
      rw [hw₁]; exact Work.settle_eq ht _
    have htasks : s₁.tasks = s.tasks.erase key := by
      show s₁.work.tasks = _
      rw [hset]
      rfl
    have hfans : s₁.work.fans = s.work.settleFans owner key .cancelled := by
      rw [hset, hown]
      by_cases hmem : owner ∈ s.fans
      · rw [hnode hmem]
      · have hnone : s.work.fans[owner]? = none := by
          by_contra hne
          obtain ⟨f, hf⟩ := Option.ne_none_iff_exists'.1 hne
          exact hmem (mem_of_get hf)
        simp only [Work.settleFans, hnone]
    refine (cancelTasks_said hnd.2 (fun k => ?_) fun k t' hget => ?_).mono fun _ s' ho => ?_
    · rw [htasks, Std.ExtTreeMap.mem_erase, hkeys k, List.mem_cons]
      simp only [ne_eq, Std.LawfulEqCmp.compare_eq_iff_eq]
      constructor
      · rintro ⟨hne, rfl | hk⟩
        · exact absurd rfl hne
        · exact hk
      · intro hk
        exact ⟨fun he => hnd.1 (he ▸ hk), .inr hk⟩
    · rw [htasks] at hget
      obtain ⟨h1, h2⟩ := howner k t' (get_of_erase hget).2
      refine ⟨h1, fun hmem => h2 ?_⟩
      have : owner ∈ s₁.work.fans := hmem
      rw [hfans] at this
      exact settleFans_mem.1 this
    · rw [ho, hfans, cancelBranches_cons, hset]

/-- Cancelling pending branches leaves the outcomes as they were before. -/
theorem uncancelled_cancelled {keys : List String} (hno : ∀ b : String, f.branches[b]? ≠ some .cancelled)
    (hpend : ∀ k ∈ keys, f.branches[k]? = some .pending) :
    ({ f with branches := keys.foldl (fun m b => m.insert b .cancelled) f.branches } : Fan).uncancelled = f := by
  unfold Fan.uncancelled
  have : ((keys.foldl (fun m b => m.insert b .cancelled) f.branches).map
      fun _ o => if o = BranchStatus.cancelled then BranchStatus.pending else o) = f.branches := by
    apply Std.ExtTreeMap.ext_getElem?
    intro a
    rw [Std.ExtTreeMap.getElem?_map, get_insertAll]
    by_cases ha : a ∈ keys
    · rw [if_pos ha, hpend a ha]
      rfl
    · rw [if_neg ha]
      cases hget : f.branches[a]? with
      | none => rfl
      | some o =>
        have : o ≠ .cancelled := fun he => hno a (he ▸ hget)
        simp [this]
  simp only [this]

theorem closeJoin_said (ck : Checked c.fl) (hc : cause ≠ .interrupt) {fan : String} {join : Node}
    (hf : s.work.FanOpen c.fl fan f []) (hno : ∀ b : String, f.branches[b]? ≠ some .cancelled) (hjoin : f.join = join.id)
    (hj : c.fl.node join.id = some join) (hty : join.type = .join) {ok : Bool}
    (hv : (tally join.joinKind (c.fl.waitFor join.id) f).verdict = some ok) :
    Says c cause (closeJoin c fan join (tally join.joinKind (c.fl.waitFor join.id) f).succeeded
    (tally join.joinKind (c.fl.waitFor join.id) f).failed ok) s fun _ s' => s'.work.Undecided c.fl := by
  unfold closeJoin
  refine Runs.getSt ?_
  have hkeys : ∀ k : String, k ∈ s.tasks ↔ k ∈ s.tasks.keys := fun k => Std.ExtTreeMap.mem_keys.symm
  refine (cancelTasks_said Std.ExtTreeMap.nodup_keys hkeys fun k t hget => ?_).bind fun _ s₁ ho => ?_
  · obtain ⟨h1, h2, -⟩ := hf.task hget
    exact ⟨h1, fun _ => h2⟩
  obtain ⟨f', hf'⟩ : ∃ f' : Fan,
      f' = { f with branches := s.tasks.keys.foldl (fun m b => m.insert b .cancelled) f.branches } := ⟨_, rfl⟩
  have hfans : s₁.work.fans = single fan f' := by
    rw [ho]
    simp only [cancelBranches, hf.fans, get_single_self, single_insert, hf']
  have hun : f'.uncancelled = f := by
    rw [hf']
    refine uncancelled_cancelled hno fun k hk => ?_
    obtain ⟨t, ht⟩ := get_of_mem ((hkeys k).2 hk)
    exact (hf.task ht).2.2.1
  refine Runs.getSt (says_bind ⟨hc, .inr (.inr ⟨join, hj, hty⟩)⟩ fun s₂ hw₂ => ?_)
  have hfans₂ : s₂.work.fans = single fan f' := by rw [hw₂]; exact hfans
  have hchildren : s₂.work.children = s.work.children := by rw [hw₂]; show s₁.work.children = _; rw [ho]
  have hget₂ : s₂.fans[fan]? = some f' := by show s₂.work.fans[fan]? = _; rw [hfans₂, get_single_self]
  have hi₂ : (s₂.work.closeFan fan).Idle := by
    simp only [Work.closeFan, hfans₂, get_single_self, single_erase]
    refine ⟨?_, rfl, ?_, ?_, ?_⟩
    · rw [hw₂]; show s₁.work.tasks = ∅; rw [ho]
    · rw [hw₂]; show s₁.work.maps = ∅; rw [ho]; exact hf.rest.maps
    · rw [hw₂]; show s₁.work.awaits = ∅; rw [ho]; exact hf.rest.awaits
    · show s₂.work.dropChildren fan = ∅
      unfold Work.dropChildren
      rw [hchildren]
      exact filter_owner_empty fun k ch hget => (hf.child hget).1
  refine says_bind ⟨f', join, hget₂, ?_, rfl, by rw [hun]; exact hv, by rw [hun], by rw [hun], fun {b} hb => ?_, hi₂⟩
    fun s₃ hw₃ => ?_
  · rw [hf']
    exact hjoin ▸ hj
  · -- a branch that is still pending has no task left: it is a child
    rw [hf'] at hb
    replace hb := get_insertAll.symm.trans hb
    split at hb
    · cases hb
    · rename_i hnk
      rcases hf.pending hb (by simp) with hm | hm
      · exact absurd ((hkeys b).1 hm) hnk
      · obtain ⟨ch, hch⟩ := get_of_mem hm
        obtain ⟨h1, h2, -⟩ := hf.child hch
        refine ⟨ch, ?_, h1, h2⟩
        show s₂.work.children[b]? = some ch
        rw [hchildren]
        exact hch
  have hi₃ : s₃.work.Idle := by rw [hw₃]; exact hi₂
  split
  · exact advance_said (enter_said ck hc) hi₃
  · split
    · exact enter_said ck hc hi₃
    · exact fail_undecided _ _ _

/-- No branch of an open fan-out was cancelled. -/
def Open.Uncancelled (o : Open) : Prop :=
  ∀ (fan : String) (f : Fan), o.fans[fan]? = some f → ∀ b : String, f.branches[b]? ≠ some .cancelled

theorem evalJoin_said (ck : Checked c.fl) (hc : cause ≠ .interrupt) {fan : String}
    (hf : s.work.FanOpen c.fl fan f []) (hno : s.work.Uncancelled) :
    Says c cause (evalJoin c fan) s fun _ s' => s'.work.Undecided c.fl := by
  obtain ⟨fn, hfn, hft, hbr⟩ := hf.type
  obtain rfl : fn.id = fan := Flow.node_id hfn
  obtain ⟨jn, hjo, hjn, hjt, -, hsub⟩ := (ck.fan hfn hft).join
  have hjoin : f.join = jn.id := Option.some.inj (hf.join.symm.trans hjo)
  have hget : s.work.fans[fn.id]? = some f := by rw [hf.fans, get_single_self]
  have hnof := hno fn.id f hget
  unfold evalJoin
  refine Runs.getSt ?_
  simp only [show s.fans[fn.id]? = some f from hget, hjoin, hjn]
  split
  · rename_i hnone
    refine Runs.pure fun fan f' hget' => ?_
    rw [hf.fans] at hget'
    obtain ⟨rfl, rfl⟩ := get_of_single hget'
    refine ⟨hnof, fun join hj => ?_⟩
    rw [hjoin, hjn] at hj
    cases hj
    exact hnone
  · rename_i hv
    exact closeJoin_said ck hc hf hnof hjoin hjn hjt hv

theorem abortMap_said (ck : Checked c.fl) (hc : cause ≠ .interrupt) {r : MapWork} {lost : Nat}
    (hm : s.work.MapOpen c.fl n.id r lost) (index : Nat) :
    Says c cause (abortMap c n index) s fun _ s' => s'.work.Undecided c.fl := by
  unfold abortMap
  refine Runs.getSt ?_
  have hfans : s.work.fans = ∅ := hm.rest.fans
  have hkeys : ∀ k : String, k ∈ s.tasks ↔ k ∈ s.tasks.keys := fun k => Std.ExtTreeMap.mem_keys.symm
  refine (cancelTasks_said Std.ExtTreeMap.nodup_keys hkeys fun k t hget => ⟨(hm.task hget).1, fun hmem => ?_⟩).bind
    fun _ s₁ ho => ?_
  · rw [show s.fans = ∅ from hfans] at hmem
    exact absurd hmem Std.ExtTreeMap.not_mem_empty
  have hi₁ : ∀ d : Event.MapAbort, d.node = n.id → (s₁.work.step (.mapAbort d)).Idle := by
    intro d hd
    simp only [Work.step, hd]
    refine ⟨by rw [ho], ?_, ?_, ?_, ?_⟩
    · show s₁.work.fans = ∅
      rw [ho]
      simp only [cancelBranches, hfans, get_empty]
    · show s₁.work.maps.erase n.id = ∅
      rw [ho]
      show s.work.maps.erase n.id = ∅
      rw [hm.maps, single_erase]
    · show s₁.work.awaits = ∅
      rw [ho]
      exact hm.rest.awaits
    · show s₁.work.dropChildren n.id = ∅
      unfold Work.dropChildren
      rw [ho]
      exact filter_owner_empty fun k ch hget => (hm.child hget).1
  refine Runs.getSt (says_bind (hi₁ _ rfl) fun s₂ hw₂ => enter_said ck hc ?_)
  rw [hw₂]
  exact hi₁ _ rfl

/-! ### Outcomes that are no cancellation -/

theorem Open.Undecided.uncancelled {o : Open} (h : o.Undecided c.fl) : o.Uncancelled := fun fan f hf => (h fan f hf).uncancelled

theorem Open.Uncancelled.of_settleFans {o : Open} {node : String} {out : BranchStatus} (h : w.Uncancelled)
    (hout : out ≠ .cancelled) (ho : o.fans = w.settleFans owner node out) : o.Uncancelled := by
  intro fan f hf b hb
  rw [ho] at hf
  unfold Work.settleFans at hf
  cases hown : w.fans[owner]? with
  | none => rw [hown] at hf; exact h fan f hf b hb
  | some f₀ =>
    rw [hown] at hf
    rcases get_of_insert hf with ⟨-, rfl⟩ | ⟨-, hf⟩
    · rcases get_of_insert hb with ⟨-, he⟩ | ⟨-, hb⟩
      · exact hout he
      · exact h owner f₀ hown b hb
    · exact h fan f hf b hb

theorem Work.finishTask_fans {k : String} (ht : w.tasks[k]? = some t) :
    (w.finishTask k).fans = w.settleFans t.owner t.node .completed := by
  unfold Work.finishTask
  rw [ht]
  exact congrArg Open.fans (congrArg Work.toOpen (@Work.settle_eq { w with maps := w.countDone t.owner t.node } k t ht _))

theorem Work.finishChild_uncancelled {d : Event.ChildDone} (h : w.Uncancelled) : (w.finishChild d).Uncancelled := by
  unfold Work.finishChild
  cases hc : w.children[d.instanceKey]? with
  | none => exact h
  | some ch =>
    simp only [Work.settleChild]
    split
    · split
      · exact h
      · exact h
    · refine Open.Uncancelled.of_settleFans (w := { w with children := w.children.erase d.instanceKey }) h ?_ rfl
      split <;> simp

/-! ### Attempts -/

theorem afterSettle_said (ck : Checked c.fl) (hc : cause ≠ .interrupt) {dyn : String}
    (hn : c.fl.node t.node = some n) (hf : Freed c.fl s.work t.owner t.node 0) (hno : s.work.Uncancelled) (hl : s.Live) :
    Says c cause (afterSettle c t n dyn) s fun _ s' => s'.work.Undecided c.fl := by
  have hid : n.id = t.node := Flow.node_id hn
  unfold afterSettle
  refine Runs.getSt ?_
  rw [if_neg (by simp [hl.unended])]
  refine hf.react Iff.rfl (fun f hfan => evalJoin_said ck hc hfan hno) (fun r hm hn' => ?_) fun hidle _ => ?_
  · rw [← hn', ← hid] at hm
    exact mapProgress_said (enter_said ck hc) (hid.symm ▸ hn) hm
  · exact advance_said (enter_said ck hc) hidle

/-- An instance settled without success and its owner reacts. -/
theorem failed_said (ck : Checked c.fl) (hc : cause ≠ .interrupt) {node : String}
    (hn : c.fl.node node = some n) (hf : Freed c.fl s.work owner node 1) (hno : s.work.Uncancelled) (index : Nat)
    (reason msg : String) :
    Says c cause (if (s.fans[owner]?).isSome then evalJoin c owner
    else if n.onFailure ≠ "" then
    if (s.maps[owner]?).isSome ∧ node = owner then abortMap c n index else enter c n.onFailure
    else fail c reason msg node) s fun _ s' => s'.work.Undecided c.fl := by
  have hid : n.id = node := Flow.node_id hn
  by_cases hof : n.onFailure ≠ ""
  · rw [if_pos hof]
    refine hf.react Iff.rfl (fun f hfan => evalJoin_said ck hc hfan hno) (fun r hm hn' => ?_) fun hidle _ => ?_
    · rw [← hn', ← hid] at hm
      exact abortMap_said ck hc hm index
    · exact enter_said ck hc hidle
  · rw [if_neg hof]
    cases hf with
    | branch hfan => rw [if_pos hfan.here]; exact evalJoin_said ck hc hfan hno
    | alone hidle _ => rw [hidle.no_fan, if_neg (by simp)]; exact fail_undecided _ _ _
    | item hm _ => rw [hm.here.1, if_neg (by simp)]; exact fail_undecided _ _ _

/-- The instance at its key is scheduled again, as it was. -/
theorem schedule_again {gen attempt : Nat} (hn : c.fl.node t.node = some n)
    (ht : s.tasks[t.key]? = some t) (hs : t.status ≠ .interrupted) (hd : s.work.Undecided c.fl) :
    Says c cause (schedule c n t.key t.owner t.index t.item t.resumption gen attempt) s fun _ s' =>
    s'.work.toOpen = s.work.putTask (s.work.taskOf
    (scheduledOf s n t.key t.owner t.index t.item t.resumption gen attempt)) ∧ s'.work.Undecided c.fl := by
  refine (schedule_said (.inr ⟨t, ht, ⟨Flow.node_id hn, rfl, rfl, rfl⟩, .inl ⟨hs, rfl, rfl⟩⟩)).mono fun _ s' ho => ⟨ho, ?_⟩
  exact hd.of_fans (by rw [ho]; rfl)

theorem taskFailed_said (ck : Checked c.fl) (hc : cause ≠ .interrupt) (hn : c.fl.node t.node = some n)
    (hp : Progress c.fl s.work) (ht : s.tasks[t.key]? = some t) (hd : s.work.Undecided c.fl) (msg : String)
    (retryable : Bool) (reason : String) (usage : SMap Rat) :
    Says c cause (taskFailed c t msg retryable reason usage) s fun _ s' => s'.work.Undecided c.fl := by
  unfold taskFailed
  refine nodeOf_said hn (Runs.getSt ?_)
  simp only
  refine says_bind hd fun s₁ hw₁ => ?_
  split
  · exact fail_undecided _ _ _
  · split
    · -- the task waits for its next attempt
      rename_i hr
      have hset : s₁.work = { s.work with tasks := s.work.tasks.insert t.key { t with status := .retrying } } := by
        rw [hw₁]
        simp only [Work.step, hr, if_true, Work.setStatus, State.work_tasks, ht]
      have hget : s₁.tasks[t.key]? = some { t with status := .retrying } := by
        show s₁.work.tasks[t.key]? = _
        rw [hset]
        exact Std.ExtTreeMap.getElem?_insert_self
      have hd₁ : s₁.work.Undecided c.fl := hd.of_fans (by rw [hset])
      split
      · exact (schedule_again (t := { t with status := .retrying }) hn hget (by simp) hd₁).mono fun _ _ h => h.2
      · exact (timerAt_said _ _ _ _ _ _).mono fun _ s' ho => hd₁.of_fans (by rw [ho])
    · -- the task is settled as failed
      rename_i hr
      have hset : s₁.work = s.work.settle t.key .failed := by
        rw [hw₁]
        simp only [Work.step]
        rw [if_neg hr]
      refine Runs.getSt (failed_said ck hc hn ?_ ?_ _ _ _)
      · rw [hset]; exact hp.settle_task ht (by simp)
      · rw [hset, Work.settle_eq ht]
        exact Open.Uncancelled.of_settleFans hd.uncancelled (by simp) rfl

/-! ## Commands -/

section
variable {base : Nat}

theorem complete_said (ck : Checked c.fl) (hc : cause ≠ .interrupt) (hu : Unfinished c.fl base s)
    (hr : s.work.Rested c.fl base) (hd : s.work.Undecided c.fl) (p : Cmd.CompleteData) :
    Says c cause (complete c p) s fun _ s' => s'.work.Undecided c.fl := by
  unfold complete
  refine Runs.getSt ?_
  cases hcur : current s p.toTaskRef with
  | none => exact Runs.pure hd
  | some t =>
    obtain ⟨ht, -, -⟩ := hr.current hu hcur
    obtain ⟨n, hn, -, -⟩ := (hu.sound.task ht).node
    refine nodeOf_said hn ?_
    simp only
    split
    · exact taskFailed_said ck hc hn hr.progress ht hd _ _ _ _
    · refine says_live hd rfl hu.live fun s₁ hl₁ hw₁ => Runs.getSt ?_
      have hfin : s₁.work = s.work.finishTask t.key := hw₁
      split
      · exact fail_undecided _ _ _
      · refine afterSettle_said ck hc hn (by rw [hfin]; exact hr.progress.finish_task ht) ?_ hl₁
        rw [hfin]
        exact Open.Uncancelled.of_settleFans hd.uncancelled (by simp) (Work.finishTask_fans ht)

theorem failTask_said (ck : Checked c.fl) (hc : cause ≠ .interrupt) (hu : Unfinished c.fl base s)
    (hr : s.work.Rested c.fl base) (hd : s.work.Undecided c.fl) (p : Cmd.FailData) :
    Says c cause (failTask c p) s fun _ s' => s'.work.Undecided c.fl := by
  unfold failTask
  refine Runs.getSt ?_
  cases hcur : current s p.toTaskRef with
  | none => exact Runs.pure hd
  | some t =>
    obtain ⟨ht, -, -⟩ := hr.current hu hcur
    obtain ⟨n, hn, -, -⟩ := (hu.sound.task ht).node
    exact taskFailed_said ck hc hn hr.progress ht hd _ _ _ _

theorem interrupt_said (hd : s.work.Undecided c.fl) (p : Cmd.InterruptData) :
    Says c .interrupt (interrupt c p) s fun _ s' => s'.work.Undecided c.fl := by
  unfold interrupt
  refine Runs.getSt ?_
  split
  · exact Runs.pure hd
  · refine says_bind rfl fun s₁ hw₁ => Runs.getSt ?_
    split
    · exact fail_undecided _ _ _
    · refine Runs.pure (hd.of_fans ?_)
      rw [hw₁]
      simp only [Work.step, Work.setStatus]
      split <;> rfl

theorem resume_said (hu : Unfinished c.fl base s) (hd : s.work.Undecided c.fl) (p : Cmd.ResumeData) :
    Says c (.answer p.answer) (resume c p) s fun _ s' => s'.work.Undecided c.fl := by
  unfold resume
  refine Runs.getSt ?_
  split
  · exact Runs.pure hd
  · rename_i k t hfind
    have ht : s.tasks[k]? = some t := Std.ExtTreeMap.mem_toList_iff_getElem?_eq_some.1 (List.mem_of_find?_eq_some hfind)
    have hint : t.status = .interrupted := by
      have hres := List.find?_some hfind
      simp only [resumes, Bool.and_eq_true, decide_eq_true_eq] at hres
      exact hres.1
    obtain rfl : t.key = k := (hu.sound.task ht).key
    obtain ⟨n, hn, -, -⟩ := (hu.sound.task ht).node
    refine nodeOf_said hn ((schedule_said (.inr ⟨t, ht, ⟨Flow.node_id hn, rfl, rfl, rfl⟩, .inr ?_⟩)).mono fun _ s' ho => ?_)
    · exact ⟨_, rfl, hint, rfl, rfl, rfl⟩
    · exact hd.of_fans (by rw [ho]; rfl)

theorem signal_said (ck : Checked c.fl) (hc : cause ≠ .interrupt) (hr : s.work.Rested c.fl base)
    (hd : s.work.Undecided c.fl) (p : Cmd.SignalData) :
    Says c cause (signal c p) s fun _ s' => s'.work.Undecided c.fl := by
  unfold signal
  split
  · exact Runs.throw trivial
  · refine Runs.getSt ?_
    split
    · exact Runs.pure hd
    · rename_i hnew
      refine says_bind (by simpa [Payload.Apt] using hnew) fun s₁ hw₁ => Runs.getSt ?_
      have hopen : s₁.work.toOpen = s.work.toOpen := by rw [hw₁]; rfl
      split
      · exact Runs.pure (hd.of_fans (by rw [hopen]))
      · rename_i node a hfind
        have hget : s₁.work.awaits[node]? = some a :=
          Std.ExtTreeMap.mem_toList_iff_getElem?_eq_some.1 (List.mem_of_find?_eq_some hfind)
        rw [hopen] at hget
        have hone := hr.progress.one_await hget
        obtain ⟨n, hn, -, -⟩ := hone.type
        obtain rfl : n.id = node := Flow.node_id hn
        refine nodeOf_said hn (consume_said (enter_said ck hc) (by rw [hopen]; exact hone.rest) fun k hk => ?_)
        rw [hopen, hone.awaits, mem_single] at hk
        exact hk

theorem awaitTimeout_said (ck : Checked c.fl) (hc : cause ≠ .interrupt) {tm : Timer} (hp : Progress c.fl s.work)
    (hd : s.work.Undecided c.fl) : Says c cause (awaitTimeout c tm) s fun _ s' => s'.work.Undecided c.fl := by
  unfold awaitTimeout
  refine Runs.getSt ?_
  split
  · exact Runs.pure hd
  · rename_i a hget
    have hone := hp.one_await hget
    split
    · obtain ⟨n, hn, -, -⟩ := hone.type
      have hid : n.id = tm.node := Flow.node_id hn
      refine nodeOf_said hn (says_bind trivial fun s₁ hw₁ => ?_)
      split
      · exact fail_undecided _ _ _
      · refine enter_said ck hc ?_
        rw [hw₁]
        refine ⟨hone.rest.tasks, hone.rest.fans, hone.rest.maps, ?_, hone.rest.children⟩
        show s.work.awaits.erase n.id = ∅
        rw [hid, hone.awaits, single_erase]
    · exact Runs.pure hd

theorem timer_said (ck : Checked c.fl) (hc : cause ≠ .interrupt) (hu : Unfinished c.fl base s)
    (hr : s.work.Rested c.fl base) (hd : s.work.Undecided c.fl) (p : Cmd.TimerData) :
    Says c cause (timer c p) s fun _ s' => s'.work.Undecided c.fl := by
  unfold timer
  refine Runs.getSt ?_
  split
  · exact Runs.pure hd
  · rename_i tm htm
    refine says_bind trivial fun s₁ hw₁ => Runs.getSt ?_
    have hopen : s₁.work.toOpen = s.work.toOpen := by rw [hw₁]; rfl
    have hp₁ : Progress c.fl s₁.work := hr.progress.of_open hopen (by rw [hw₁]; rfl)
    have hd₁ : s₁.work.Undecided c.fl := by rw [hopen]; exact hd
    have htask : ∀ {k : String} {t : Task}, s₁.tasks[k]? = some t → t.key = k ∧ ∃ n, c.fl.node t.node = some n := by
      intro k t hget
      have hget : s₁.work.tasks[k]? = some t := hget
      rw [hopen] at hget
      obtain ⟨n, hn, -, -⟩ := (hu.sound.task hget).node
      exact ⟨(hu.sound.task hget).key, n, hn⟩
    split
    · split
      · exact Runs.pure hd₁
      · rename_i t ht
        obtain ⟨hk, n, hn⟩ := htask ht
        split
        · rename_i hcond
          rw [← hk] at ht
          exact nodeOf_said hn ((schedule_again hn ht (by simp [hcond.2.1]) hd₁).mono fun _ _ h => h.2)
        · exact Runs.pure hd₁
    · split
      · exact Runs.pure hd₁
      · rename_i t hcur
        obtain ⟨ht, -, -, -⟩ := current_some hcur
        obtain ⟨hk, n, hn⟩ := htask ht
        rw [← hk] at ht
        exact taskFailed_said ck hc hn hp₁ ht hd₁ _ _ _ _
    · exact awaitTimeout_said ck hc hp₁ hd₁

theorem childDone_said (ck : Checked c.fl) (hc : cause ≠ .interrupt) (hr : s.work.Rested c.fl base)
    (hd : s.work.Undecided c.fl) (p : Cmd.ChildDoneData) :
    Says c cause (childDone c p) s fun _ s' => s'.work.Undecided c.fl := by
  unfold childDone
  refine Runs.getSt ?_
  split
  · exact Runs.pure hd
  · rename_i key ch hfind
    obtain ⟨hch, -⟩ := childOf_some hfind
    obtain ⟨⟨n, hn⟩, hnode, hne⟩ := hr.progress.child_node ck.toWellFormed hch
    have hnid : n.id = ch.node := Flow.node_id hn
    simp only [hnode]
    obtain ⟨d, hd'⟩ : ∃ d : Event.ChildDone, d = { node := ch.node, key := if key = ch.node then "" else key
                                                   childID := p.childID, status := p.status, output := p.output
                                                   error := p.error, counters := p.counters } := ⟨_, rfl⟩
    have hkey : d.instanceKey = key := by
      rw [hd']
      unfold Event.ChildDone.instanceKey
      by_cases he : key = ch.node
      · simp [he]
      · simp [he, hne]
    rw [← hd']
    have hdc : s.children[d.instanceKey]? = some ch := hkey.symm ▸ hch
    refine says_bind ⟨hd, ch, hdc, by rw [hd']⟩ fun s₁ hw₁ => Runs.getSt ?_
    have hfin : s₁.work = s.work.finishChild d := hw₁
    have hno₁ : s₁.work.Uncancelled := by rw [hfin]; exact Work.finishChild_uncancelled hd.uncancelled
    split
    · exact fail_undecided _ _ _
    · refine nodeOf_said hn ?_
      have hfreed : Freed c.fl s₁.work ch.owner ch.node (if p.status == "completed" then 0 else 1) := by
        rw [hfin]
        have := hr.progress.finish_child hdc (by rw [hd'])
        rw [show d.status = p.status by rw [hd']] at this
        exact this
      refine hfreed.react eq_comm (fun f hf => evalJoin_said ck hc hf hno₁) (fun r hm hno => ?_) fun hidle _ => ?_
      · rw [← hno, ← hnid] at hm
        split
        · rename_i hok
          rw [if_pos hok] at hm
          exact mapProgress_said (enter_said ck hc) (hnid.symm ▸ hn) hm
        · split
          · exact abortMap_said ck hc hm ch.index
          · exact fail_undecided _ _ _
      · split
        · exact advance_said (enter_said ck hc) hidle
        · split
          · exact enter_said ck hc hidle
          · exact fail_undecided _ _ _

theorem update_said (hd : s.work.Undecided c.fl) (writes : SMap Json) :
    Says c cause (update c writes) s fun _ s' => s'.work.Undecided c.fl := by
  unfold update
  refine Runs.getSt ?_
  split
  · exact Runs.throw trivial
  · split
    · exact Runs.pure hd
    · rename_i hnew
      split
      · exact Runs.throw trivial
      · refine says_emit (.inr (by simpa using hnew)) fun s' hw => ?_
        rw [hw]
        exact hd

/-! ## Beginning -/

theorem start_said (ck : Checked c.fl) (hc : cause ≠ .interrupt) (hf : cause ≠ .fork) (ha : s.Absent) (p : Cmd.StartData) :
    Says c cause (start c p) s fun _ s' => s'.work.Undecided c.fl := by
  have hidle : s.work.Idle := ha.work ▸ Work.none_idle
  unfold start
  refine Runs.getSt ?_
  split
  · split
    · exact Runs.pure (.of_empty hidle.fans)
    · exact Runs.throw trivial
  · simp only
    generalize (if isNull p.input = true then Json.obj [] else p.input.encoded) = input
    split
    · split
      · exact Runs.throw trivial
      · refine says_bind hf fun s' hw => enter_said ck hc ?_
        rw [hw]
        exact hidle
    · exact Runs.throw trivial

theorem startAgain_said (he : s.exists = true) (hd : s.work.Undecided c.fl) (p : Cmd.StartData) :
    Says c cause (start c p) s fun _ s' => s'.work.Undecided c.fl := by
  unfold start
  refine Runs.getSt ?_
  rw [if_pos he]
  split
  · exact Runs.pure hd
  · exact Runs.throw trivial

/-- Open tasks are filed under their keys, at nodes of the flow. -/
def Work.TasksFiled (fl : Flow) (w : Work) : Prop :=
  ∀ (k : String) (t : Task), w.tasks[k]? = some t → t.key = k ∧ ∃ n, fl.node t.node = some n

theorem rekickTasks_said : ∀ {keys : List String} {s : State}, s.work.TasksFiled c.fl → s.work.Undecided c.fl →
    Says c cause (rekickTasks c keys) s fun _ s' => s'.work.Undecided c.fl
  | [], s, _, hd => Runs.pure hd
  | key :: keys, s, hf, hd => by
    unfold rekickTasks
    refine Runs.getSt ?_
    split
    · exact Runs.throw trivial
    · rename_i t ht
      obtain ⟨rfl, n, hn⟩ := hf key t ht
      have hid : n.id = t.node := Flow.node_id hn
      split
      · exact rekickTasks_said hf hd
      · rename_i hs
        refine nodeOf_said hn ((schedule_again hn ht hs hd).bind fun _ s' ⟨ho, hd'⟩ => rekickTasks_said ?_ hd')
        intro k t' hget
        rw [ho] at hget
        rcases get_of_insert hget with ⟨rfl, rfl⟩ | ⟨-, hget⟩
        · refine ⟨rfl, n, ?_⟩
          show c.fl.node n.id = some n
          rw [hid]
          exact hn
        · exact hf k t' hget

theorem rekickAwaits_said (ck : Checked c.fl) (hc : cause ≠ .interrupt) (hp : Progress c.fl s.work)
    (hd : s.work.Undecided c.fl) :
    Says c cause (rekickAwaits c s.awaits.keys) s fun _ s' => s'.work.Undecided c.fl := by
  rcases hp.awaits_cases with he | ⟨k, a, h, -⟩
  · rw [show s.awaits = ∅ from he]
    exact Runs.pure hd
  · obtain ⟨n, hn, -, -⟩ := h.type
    obtain rfl : n.id = k := Flow.node_id hn
    rw [show s.awaits = single n.id a from h.awaits, keys_single]
    unfold rekickAwaits
    refine nodeOf_said hn ((await_said (enter_said ck hc) h.rest fun k hk => ?_).bind fun _ s' h' => Runs.pure h')
    rw [h.awaits, mem_single] at hk
    exact hk

/-- Open children are filed under their keys, at nodes of the flow. -/
def Work.ChildrenFiled (fl : Flow) (w : Work) : Prop :=
  ∀ (k : String) (ch : ChildState), w.children[k]? = some ch →
    (∃ n, fl.node ch.node = some n) ∧ ch.nodeOf k = ch.node ∧ k ≠ ""

/-- A child takes the place of another of its node. -/
theorem Work.ChildrenFiled.rehire {fl : Flow} {w w' : Work} (hf : w.ChildrenFiled fl) {key : String} {ch ch' : ChildState}
    (hch : w.children[key]? = some ch) (hnode : ch'.node = ch.node) (hw : w'.children = w.children.insert key ch') :
    w'.ChildrenFiled fl := by
  intro k ch'' hget
  rw [hw] at hget
  rcases get_of_insert hget with ⟨rfl, rfl⟩ | ⟨-, hget⟩
  · have h := hf key ch hch
    simp only [ChildState.nodeOf, hnode] at h ⊢
    exact h
  · exact hf k ch'' hget

theorem rekickChildren_said : ∀ {keys : List String} {s : State}, (s.Ended ∨ s.work.ChildrenFiled c.fl) →
    s.work.Undecided c.fl → Says c .fork (rekickChildren c keys) s fun _ s' => s'.work.Undecided c.fl
  | [], s, _, hd => Runs.pure hd
  | key :: keys, s, hf, hd => by
    unfold rekickChildren
    refine Runs.getSt ?_
    split
    · exact Runs.pure hd
    · rename_i hlive
      have hf := hf.resolve_left fun he => hlive he.status
      split
      · exact Runs.throw trivial
      · rename_i ch hch
        obtain ⟨⟨n, hn⟩, hnode, hne⟩ := hf key ch hch
        have hid : n.id = ch.node := Flow.node_id hn
        rw [hnode]
        refine nodeOf_said hn ((startChild_said (.inr hne) fun d hdn hkey howner hindex => ?_).bind fun _ s' h' => ?_)
        · exact .inr ⟨rfl, ch, hkey.symm ▸ hch, hid.symm.trans hdn.symm, howner.symm, hindex.symm⟩
        · rcases h' with he | ⟨ch', hnode', -, -, ho⟩
          · exact rekickChildren_said (.inl he) he.undecided
          · exact rekickChildren_said (.inr (hf.rehire hch (hnode'.trans hid) (by rw [ho]; rfl))) (hd.of_fans (by rw [ho]; rfl))

theorem rekick_said (ck : Checked c.fl) (hu : Unfinished c.fl base s) (hp : Progress c.fl s.work)
    (hgen : ∀ (k : String) (t : Task), s.work.tasks[k]? = some t → t.generation ≤ base) (hd : s.work.Undecided c.fl) :
    Says c .fork (rekick c) s fun _ s' => s'.work.Undecided c.fl := by
  unfold rekick
  refine Runs.getSt ?_
  have hfiled : s.work.TasksFiled c.fl := fun k t hget => by
    obtain ⟨n, hn, -, -⟩ := (hu.sound.task hget).node
    exact ⟨(hu.sound.task hget).key, n, hn⟩
  refine (Runs.beside (rekickTasks_all hu hp hgen) (rekickTasks_said hfiled hd)).bind
    fun _ s₁ ⟨⟨hu₁, hp₁, hd₁, _⟩, hund₁⟩ => Runs.getSt ?_
  refine (Runs.beside (rekickAwaits_runs hu₁ hp₁ hd₁) (rekickAwaits_said ck (by simp) hp₁ hund₁)).bind
    fun _ s₂ ⟨⟨_, hp₂, _, _, _⟩, hund₂⟩ => Runs.getSt (Runs.setAux ?_)
  exact rekickChildren_said (.inr fun k ch hget => hp₂.child_node ck.toWellFormed hget) hund₂

theorem forkProg_said (ck : Checked c.fl) {src : State} (ha : s.Absent) (hsrc : Settled c.fl base src)
    (hd : src.work.Undecided c.fl) (source : String) (seq : Nat) (writes : SMap Json) :
    Says c .fork (forkProg c src source seq writes) s fun _ s' => s'.work.Undecided c.fl := by
  unfold forkProg
  refine Runs.getSt ?_
  have hfork : Says c .fork (emit c (.forked { execID := s.execID, source, seq, state := src.marshal })) s
      fun _ s' => s'.work.Undecided c.fl := says_emit trivial fun s' hw => hd.of_fans (by
        rw [hw]
        show src.encoded.work.fans = _
        rw [State.work_encoded])
  refine (Runs.beside (forked_runs ha hsrc) hfork).bind fun _ s₁ ⟨h₁, hd₁⟩ => Runs.getSt ?_
  rcases h₁ with he | ⟨hu, hp, hgen, -⟩
  · rw [if_pos he.status, if_pos he.status]
    split
    · exact Runs.pure he.undecided
    · exact Runs.throw trivial
  · have hst : s₁.status.terminal = false := hu.live.unended
    simp only [hst, Bool.false_eq_true, if_false]
    split
    · exact rekick_said ck hu hp hgen hd₁
    · split
      · exact Runs.throw trivial
      · rename_i u hw
        have hedit : Says c .fork (emit c (.update { id := c.cmdID, writes })) s₁ fun _ _ => True :=
          says_emit (.inl rfl) fun _ _ => trivial
        refine (Runs.beside (edit_runs c.cmdID hu hw) hedit).bind fun _ s₂ ⟨⟨hu₂, hw₂⟩, _⟩ => ?_
        exact rekick_said ck hu₂ (by rw [hw₂]; exact hp) (by rw [hw₂]; exact hgen) (by rw [hw₂]; exact hd₁)

/-! ## Whole decisions -/

theorem decideData_said (ck : Checked c.fl) (hu : Unfinished c.fl base s) (hr : s.work.Rested c.fl base)
    (hd : s.work.Undecided c.fl) (d : CmdData) :
    Says c d.cause (decideData c d) s fun _ s' => s'.work.Undecided c.fl := by
  have hc : Cause.other ≠ .interrupt := by simp
  cases d with
  | start p => exact startAgain_said hu.live.exists hd p
  | complete p => exact complete_said ck hc hu hr hd p
  | fail p => exact failTask_said ck hc hu hr hd p
  | interrupt p => exact interrupt_said hd p
  | resume p => exact resume_said hu hd p
  | signal p => exact signal_said ck hc hr hd p
  | cancel p =>
    exact Runs.getSt (Runs.getAux fun _ => (says_end rfl).mono fun _ _ he => he.undecided)
  | timer p => exact timer_said ck hc hu hr hd p
  | childDone p => exact childDone_said ck hc hr hd p
  | update writes => exact update_said hd writes
  | undecodable t e => exact Runs.throw trivial
  | operational t => exact Runs.throw trivial

theorem abort_said (h : Settled c.fl base s) (hd : s.work.Undecided c.fl) (first : Option Event) (reason msg : String) :
    Says c cause (abortProg c first reason msg) s fun _ s' => s'.work.Undecided c.fl := by
  unfold abortProg
  refine Runs.getSt ?_
  rw [if_pos h.exists]
  split
  · exact Runs.pure hd
  · exact fail_undecided _ _ _

theorem abortFirst_said {first : Event} (ha : s.Absent) (hb : first.data.begins = true)
    (ho : Offer c.fl base s first.data) (hapt : first.data.Apt cause c.fl s) (reason msg : String) :
    Says c cause (abortProg c (some first) reason msg) s fun _ s' => s'.work.Undecided c.fl := by
  unfold abortProg
  refine Runs.getSt ?_
  simp only [ha.not_exists, Bool.false_eq_true, if_false]
  refine (Runs.beside (first_runs ha hb ho) (says_emit (Q := fun _ _ => True) hapt fun _ _ => trivial)).bind
    fun _ s₁ ⟨h₁, _⟩ => Runs.getSt ?_
  rcases h₁ with he | hl
  · rw [if_pos he.status]
    exact Runs.pure he.undecided
  · rw [if_neg (by simp [hl.unended])]
    exact fail_undecided _ _ _

end

end

section
variable {x : Ext} {fl : Flow} {s : State} {evs : List Event} {now : Time}

/-- The events of a decision were emitted for what was open, and its fan-outs are left undecided. -/
def Apt (x : Ext) (fl : Flow) (cause : Cause) (s : State) (evs : List Event) (s' : State) : Prop :=
  Path (State.apply x.quote fl) (fun s ev => ev.data.Apt cause fl s) s evs s' ∧ s'.work.Undecided fl

theorem Says.apt {c : Ctx} {cause : Cause} {m : DecM Unit} (h : Says c cause m s fun _ s' => s'.work.Undecided c.fl)
    (hok : (runDecision m s).result = .ok evs) : Apt c.x c.fl cause s evs (runDecision m s).state := Runs.decision h hok

/-- The source of a fork, between two decisions of its own. -/
def SourceApt (fl : Flow) (src : Option State) : Prop :=
  ∀ st, src = some st → (∃ b, Settled fl b st) ∧ st.work.Undecided fl

theorem decide_apt_settled (ck : Checked fl) {base : Nat} (h : Settled fl base s) (hd : s.work.Undecided fl) {cmd : Command}
    (hok : (decide x fl s cmd now).result = .ok evs) : Apt x fl cmd.data.cause s evs (decide x fl s cmd now).state := by
  unfold decide at hok ⊢
  by_cases hst : cmd.data.isStart = true
  · simp only [if_pos hst] at hok ⊢
    refine Says.apt (c := ⟨x, fl, now, cmd.id⟩) ?_ hok
    rcases decideData_start _ hst with ⟨p, hp⟩ | ⟨t, e, hp⟩
    · rw [hp]
      exact startAgain_said h.exists hd p
    · rw [hp]
      exact Runs.throw trivial
  · simp only [if_neg hst, h.exists, Bool.not_true, Bool.false_eq_true, if_false] at hok ⊢
    rcases h with he | ⟨hu, hr⟩
    · simp only [he.status, if_true] at hok ⊢
      split at hok
      · cases hok
      · rename_i hup
        cases hok
        rw [if_neg hup]
        exact ⟨.nil s, hd⟩
    · simp only [hu.live.unended, Bool.false_eq_true, if_false] at hok ⊢
      exact Says.apt (c := ⟨x, fl, now, cmd.id⟩) (decideData_said ck hu hr hd cmd.data) hok

/-- Only a start is decided for a missing execution. -/
theorem decide_apt_absent (ck : Checked fl) (h : s.Absent) {cmd : Command}
    (hok : (decide x fl s cmd now).result = .ok evs) : Apt x fl cmd.data.cause s evs (decide x fl s cmd now).state := by
  unfold decide at hok ⊢
  by_cases hst : cmd.data.isStart = true
  · simp only [if_pos hst] at hok ⊢
    refine Says.apt (c := ⟨x, fl, now, cmd.id⟩) ?_ hok
    rcases decideData_start _ hst with ⟨p, hp⟩ | ⟨t, e, hp⟩
    · rw [hp]
      exact start_said ck (by simp [CmdData.cause]) (by simp [CmdData.cause]) h p
    · rw [hp]
      exact Runs.throw trivial
  · simp only [if_neg hst, h.not_exists, Bool.not_false, if_true] at hok
    cases hok

variable {log : List (List Event)}

theorem Ask.apt (ck : Checked fl) (h : Tracked x fl s log) (hd : s.work.Undecided fl) {a : Ask}
    (hsrc : SourceApt fl a.source) (hok : (a.decide x fl s now).result = .ok evs) :
    Apt x fl a.cause s evs (a.decide x fl s now).state := by
  cases a with
  | command cmd =>
    cases h with
    | absent _ habs _ => exact decide_apt_absent ck habs hok
    | present hs _ _ => exact decide_apt_settled ck hs hd hok
  | fork src source seq cmdID writes =>
    obtain ⟨⟨b, hb⟩, hund⟩ := hsrc src rfl
    simp only [Ask.decide, decideFork] at hok ⊢
    split at hok
    · rename_i hex
      rw [if_pos hex]
      cases hok
      exact ⟨.nil s, hd⟩
    · rename_i hex
      rw [if_neg hex]
      cases h with
      | present hs _ _ => exact absurd hs.exists hex
      | absent _ habs _ =>
        exact Says.apt (c := ⟨x, fl, now, cmdID⟩) (forkProg_said ck habs hb hund source seq writes) hok

theorem continueAsNew_apt (hd : s.work.Undecided fl) {seg : Segment} {cmdID : String}
    (hok : (Packtrail.continueAsNew x fl s seg cmdID now).result = .ok evs) :
    Apt x fl .other s evs (Packtrail.continueAsNew x fl s seg cmdID now).state := by
  unfold Packtrail.continueAsNew at hok ⊢
  split at hok
  · rename_i hno
    rw [if_pos hno]
    cases hok
    exact ⟨.nil s, hd⟩
  · rename_i hno
    rw [if_neg hno]
    refine Says.apt (c := ⟨x, fl, now, cmdID⟩) (says_emit trivial fun s' hw => hd.of_fans ?_) hok
    rw [hw]
    show State.fans _ = s.fans
    rfl

theorem perform_apt (ck : Checked fl) (h : Tracked x fl s log) (hd : s.work.Undecided fl)
    {req : Request} (hsrc : SourceApt fl req.source) (hok : (req.perform x fl s now).result = .ok evs) :
    Apt x fl req.cause s evs (req.perform x fl s now).state := by
  cases req with
  | ask a => exact Ask.apt ck h hd hsrc hok
  | continueAsNew seg cmdID => exact continueAsNew_apt hd hok
  | abort a decided cmdID reason msg =>
    have hsource : SourceOk fl a.source := fun src hs => (hsrc src hs).1
    simp only [Request.perform] at hok ⊢
    split at hok
    · cases hok
    · cases hok
      exact ⟨.nil s, hd⟩
    · rename_i first rest hres
      have hasked := (Ask.apt ck h hd hsrc hres).1
      cases h with
      | present hs _ _ => exact Says.apt (c := ⟨x, fl, now, cmdID⟩) (abort_said hs hd _ reason msg) hok
      | absent _ habs _ =>
        obtain ⟨b, hdec⟩ := ask_absent (x := x) ck.toWellFormed habs a hsource decided
        obtain ⟨hp, -⟩ := hdec.wrote hres (by simp)
        obtain ⟨hbeg, hoff⟩ := first_begins habs hp
        have hfirst : first.data.Apt a.cause fl s := by
          cases hasked with
          | cons guard _ _ => exact guard
        simp only [habs.not_exists, Bool.false_eq_true, if_false] at hok ⊢
        exact Says.apt (c := ⟨x, fl, now, cmdID⟩) (abortFirst_said habs hbeg hoff hfirst reason msg) hok

/-! ## Whole runs -/

theorem State.Alike.undecided {s' : State} (ha : s.Alike s') (h : s.work.Undecided fl) : s'.work.Undecided fl :=
  ha.work ▸ h

/-- **Between two decisions no open fan-out has a verdict.** -/
theorem Reachable.undecided (ck : Checked fl) (h : Reachable x fl s log) :
    s.work.Undecided fl := by
  induction h with
  | new execID => exact .of_empty rfl
  | reload _ ha ih => exact ha.undecided ih
  | @step s log slog evs req now h hsrc hex hok ih ihsrc =>
    refine (perform_apt ck (h.tracked ck.toWellFormed) ih (fun src hs => ⟨⟨baseOf slog, ?_⟩, ihsrc src hs⟩) hok).2
    exact ((hsrc src hs).tracked ck.toWellFormed).settled (hex src hs)

/-- **Every event is emitted for what is open.** -/
theorem Reachable.apt (ck : Checked fl) (h : Reachable x fl s log) {req : Request}
    (hsrc : req.Sourced x fl) (hok : (req.perform x fl s now).result = .ok evs) :
    Apt x fl req.cause s evs (req.perform x fl s now).state := by
  refine perform_apt ck (h.tracked ck.toWellFormed) (h.undecided ck) (fun src hs => ?_) hok
  obtain ⟨hex, slog, hr⟩ := hsrc src hs
  exact ⟨⟨_, (hr.tracked ck.toWellFormed).settled hex⟩, hr.undecided ck⟩

end

end Packtrail
