import Packtrail.Walk

/-
# How one step changes what is in progress

One lemma for each way an instance changes place: a task is replaced by another attempt of itself
(`Progress.reput`), a child by another start of itself (`Progress.rehire`), and a task or a child
settles: alone it leaves nothing open, as a branch it settles in its fan-out, as an item it fills a
slot of its map or is lost to it.
-/

namespace Packtrail

variable {fl : Flow} {base : Nat} {w w' : Work} {k : String}

/-! ## Replacing an instance -/

variable {fan m : String} {r : MapWork} {t : Task} {f : Fan}

/-- The item number of an open instance is below its map's `next`, so starting it again moves nothing. -/
theorem Work.raiseNext_old (h : w.maps = single m r) {i : Nat} (hi : i < r.next) :
    w.raiseNext m m i = w.maps := by
  rw [Work.raiseNext_single h, h]
  congr 1
  have : max r.next (i + 1) = r.next := by omega
  rw [this]

variable (h : Progress fl w)

include h

theorem Progress.raiseNext_task (ht : w.tasks[k]? = some t) :
    w.raiseNext t.owner t.node t.index = w.maps := by
  cases h with
  | task h => rw [Work.raiseNext_empty h.rest.maps]; exact h.rest.maps.symm
  | await h _ => exact (h.rest.no_task ht).elim
  | child h => exact (h.rest.no_task ht).elim
  | fan h _ => rw [Work.raiseNext_empty h.rest.maps]; exact h.rest.maps.symm
  | map h _ =>
    obtain ⟨ho, hn, hi, -, -⟩ := h.task ht
    rw [ho, hn]
    exact Work.raiseNext_old h.maps hi

theorem Progress.raiseNext_child {ch : ChildState} (hc : w.children[k]? = some ch) :
    w.raiseNext ch.owner ch.node ch.index = w.maps := by
  cases h with
  | task h => exact (h.rest.no_child hc).elim
  | await h _ => exact (h.rest.no_child hc).elim
  | child h => rw [Work.raiseNext_empty h.rest.maps]; exact h.rest.maps.symm
  | fan h _ => rw [Work.raiseNext_empty h.rest.maps]; exact h.rest.maps.symm
  | map h _ =>
    obtain ⟨ho, hn, hi, -, -⟩ := h.child hc
    rw [ho, hn]
    exact Work.raiseNext_old h.maps hi

/-- A task replaced by one of the same node, owner and item. -/
theorem Progress.replace {t' : Task} (ht : w.tasks[k]? = some t) (ho : t'.owner = t.owner)
    (hn : t'.node = t.node) (hi : t'.index = t.index)
    (hw : w'.toOpen = { w.toOpen with tasks := w.tasks.insert k t' }) : Progress fl w' := by
  have htasks : w'.tasks = w.tasks.insert k t' := by rw [hw]
  have hchildren : w'.children = w.children := by rw [hw]
  cases h with
  | @task k₀ t₀ h =>
    rw [h.tasks] at ht
    obtain ⟨rfl, rfl⟩ := get_of_single ht
    refine @Progress.task _ _ k t' ⟨?_, ?_, ho.trans h.owner, hn.trans h.node, h.type⟩
    · rw [htasks, h.tasks, single_insert]
    · rw [hw]; exact h.rest
  | await h _ => exact (h.rest.no_task ht).elim
  | child h => exact (h.rest.no_task ht).elim
  | @fan fan f h hwaits =>
    refine .fan (f := f) ⟨?_, ?_, h.type, h.join, fun {a t₁} hget => ?_, fun hget => ?_, fun hp hn => ?_⟩ hwaits
    · rw [hw]; exact h.fans
    · rw [hw]; exact h.rest
    · rw [htasks] at hget
      rcases get_of_insert hget with ⟨rfl, rfl⟩ | ⟨-, hget⟩
      · obtain ⟨h1, h2, hrest⟩ := h.task ht
        exact ⟨ho.trans h1, hn.trans h2, hrest⟩
      · exact h.task hget
    · rw [hchildren] at hget; exact h.child hget
    · rw [htasks, hchildren]
      exact (h.pending hp hn).imp_left fun hm => Std.ExtTreeMap.mem_insert.2 (.inr hm)
  | @map m r h hbusy =>
    refine .map (r := r) ⟨?_, ?_, h.size, h.next_le, h.type, fun {a t₁} hget => ?_, fun hget => ?_, ?_⟩ hbusy
    · rw [hw]; exact h.maps
    · rw [hw]; exact h.rest
    · rw [htasks] at hget
      rcases get_of_insert hget with ⟨rfl, rfl⟩ | ⟨-, hget⟩
      · obtain ⟨h1, h2, h3, h4, h5⟩ := h.task ht
        exact ⟨ho.trans h1, hn.trans h2, hi ▸ h3, hi ▸ h4, h5⟩
      · exact h.task hget
    · rw [hchildren] at hget; exact h.child hget
    · rw [htasks, hchildren, size_insert_old ht]; exact h.count

theorem Progress.reput {t' : Task} (hp : w.Puts fl base t' w') (ht : w.tasks[t'.key]? = some t)
    (ho : t'.owner = t.owner) (hn : t'.node = t.node) (hi : t'.index = t.index) : Progress fl w' := by
  refine h.replace ht ho hn hi ?_
  rw [hp.opened, ho, hn, hi, h.raiseNext_task ht]

/-- A child started again at its key. -/
theorem Progress.rehire {ch ch' : ChildState} (hh : w.Hires k ch' w')
    (hc : w.children[k]? = some ch) (ho : ch'.owner = ch.owner) (hn : ch'.node = ch.node) (hi : ch'.index = ch.index) :
    Progress fl w' := by
  have hw : w'.toOpen = { w.toOpen with children := w.children.insert k ch' } := by
    rw [hh.opened, ho, hn, hi, h.raiseNext_child hc]
  have htasks : w'.tasks = w.tasks := by rw [hw]
  have hchildren : w'.children = w.children.insert k ch' := by rw [hw]
  cases h with
  | task h => exact (h.rest.no_child hc).elim
  | await h _ => exact (h.rest.no_child hc).elim
  | @child k₀ ch₀ h =>
    rw [h.children] at hc
    obtain ⟨rfl, rfl⟩ := get_of_single hc
    refine @Progress.child _ _ k ch' ⟨?_, ?_, ho.trans h.owner, hn.trans h.node, h.type⟩
    · rw [hchildren, h.children, single_insert]
    · rw [hw]; exact h.rest
  | @fan fan f h hwaits =>
    refine .fan (f := f) ⟨?_, ?_, h.type, h.join, fun hget => ?_, fun {a ch₁} hget => ?_, fun hp hn => ?_⟩ hwaits
    · rw [hw]; exact h.fans
    · rw [hw]; exact h.rest
    · rw [htasks] at hget; exact h.task hget
    · rw [hchildren] at hget
      rcases get_of_insert hget with ⟨rfl, rfl⟩ | ⟨-, hget⟩
      · obtain ⟨h1, h2, hrest⟩ := h.child hc
        exact ⟨ho.trans h1, hn.trans h2, hrest⟩
      · exact h.child hget
    · rw [htasks, hchildren]
      exact (h.pending hp hn).imp_right fun hm => Std.ExtTreeMap.mem_insert.2 (.inr hm)
  | @map m r h hbusy =>
    refine .map (r := r) ⟨?_, ?_, h.size, h.next_le, h.type, fun hget => ?_, fun {a ch₁} hget => ?_, ?_⟩ hbusy
    · rw [hw]; exact h.maps
    · rw [hw]; exact h.rest
    · rw [htasks] at hget; exact h.task hget
    · rw [hchildren] at hget
      rcases get_of_insert hget with ⟨rfl, rfl⟩ | ⟨-, hget⟩
      · obtain ⟨h1, h2, h3, h4, h5⟩ := h.child hc
        exact ⟨ho.trans h1, hn.trans h2, hi ▸ h3, hi ▸ h4, h5⟩
      · exact h.child hget
    · rw [htasks, hchildren, size_insert_old hc]; exact h.count

/-- Timers and counters are no part of what is in progress. -/
theorem Progress.of_open (ho : w'.toOpen = w.toOpen) (hb : w'.buffered = w.buffered) : Progress fl w' := by
  cases h with
  | task h => exact .task (by rw [ho]; exact h)
  | await h hq => exact .await (by rw [ho]; exact h) (by rw [hb]; exact hq)
  | child h => exact .child (by rw [ho]; exact h)
  | fan h hw => exact .fan (by rw [ho]; exact h) hw
  | map h hbusy => exact .map (by rw [ho]; exact h) hbusy

theorem Progress.no_await_of_task (ht : w.tasks[k]? = some t) {a : String} {aw : AwaitState}
    (ha : w.awaits[a]? = some aw) : False := by
  cases h with
  | task h => exact h.rest.no_await ha
  | await h _ => exact h.rest.no_task ht
  | child h => exact h.rest.no_await ha
  | fan h _ => exact h.rest.no_await ha
  | map h _ => exact h.rest.no_await ha

omit h

/-! ## Settling a task -/

theorem size_erase_old {V : Type} {m : SMap V} {k : String} {v : V} (h : m[k]? = some v) :
    (m.erase k).size + 1 = m.size := by
  have hmem : k ∈ m := Std.ExtTreeMap.mem_iff_isSome_getElem?.2 (by rw [h]; rfl)
  have hpos : m.size ≠ 0 := fun h0 => by
    rw [Std.ExtTreeMap.eq_empty_iff_size_eq_zero.2 h0] at hmem
    exact Std.ExtTreeMap.not_mem_empty hmem
  rw [Std.ExtTreeMap.size_erase, if_pos (Std.ExtTreeMap.contains_iff_mem.2 hmem)]
  omega

theorem Work.settle_eq (ht : w.tasks[k]? = some t) (o : BranchStatus) :
    w.settle k o = { w with tasks := w.tasks.erase k, fans := w.settleFans t.owner t.node o } := by
  unfold Work.settle
  rw [ht]

theorem Work.settleFans_empty (h : w.fans = ∅) (owner node : String) (o : BranchStatus) :
    w.settleFans owner node o = ∅ := by
  unfold Work.settleFans
  simp [h]

theorem Work.settleFans_single (h : w.fans = single fan f) (node : String) (o : BranchStatus) :
    w.settleFans fan node o = single fan { f with branches := f.branches.insert node o } := by
  unfold Work.settleFans
  simp only [h, get_single_self, single_insert]

theorem Work.finishTask_no_maps (h : w.maps = ∅) : w.finishTask k = w.settle k .completed := by
  unfold Work.finishTask Work.countDone
  cases ht : w.tasks[k]? with
  | none => rw [Work.settle, ht]
  | some t => simp [h, Work.settle, ht, Work.settleFans]

theorem Open.OneTask.settle (h : w.OneTask fl k t) (o : BranchStatus) : (w.settle k o).Idle := by
  rw [Work.settle_eq (by rw [h.tasks]; exact get_single_self)]
  refine ⟨?_, Work.settleFans_empty h.rest.fans _ _ _, h.rest.maps, h.rest.awaits, h.rest.children⟩
  show w.tasks.erase k = ∅
  rw [h.tasks, single_erase]

theorem Open.FanOpen.settle {o : BranchStatus} (h : w.FanOpen fl fan f [])
    (ht : w.tasks[k]? = some t) (ho : o ≠ .pending) :
    (w.settle k o).FanOpen fl fan { f with branches := f.branches.insert k o } [] := by
  obtain ⟨how, hnode, hpend, -, nd, hnd, htask⟩ := h.task ht
  obtain ⟨fn, hfn, hft, hbr⟩ := h.type
  have hmem : k ∈ f.branches := Std.ExtTreeMap.mem_iff_isSome_getElem?.2 (by rw [hpend]; rfl)
  have hother : ∀ {a : String}, (f.branches.insert k o)[a]? = some .pending → a ≠ k ∧ f.branches[a]? = some .pending := by
    intro a ha
    rcases get_of_insert ha with ⟨-, he⟩ | ⟨hne, ha⟩
    · exact absurd he ho
    · exact ⟨Ne.symm hne, ha⟩
  have hkeep : ∀ {a : String}, k ≠ a → f.branches[a]? = some .pending → (f.branches.insert k o)[a]? = some .pending := by
    intro a hne ha
    rw [get_insert, if_neg hne]
    exact ha
  rw [Work.settle_eq ht]
  refine ⟨?_, h.rest, ⟨fn, hfn, hft, fun b => ?_⟩, h.join, fun {a t₁} hget => ?_, fun {a ch} hget => ?_, fun {b} hp _ => ?_⟩
  · show w.settleFans t.owner t.node o = _
    rw [how, hnode]
    exact Work.settleFans_single h.fans k o
  · rw [← hbr b, Std.ExtTreeMap.mem_insert]
    simp only [Std.LawfulEqCmp.compare_eq_iff_eq]
    exact ⟨fun hb => hb.elim (fun e => e ▸ hmem) id, .inr⟩
  · obtain ⟨hne, hget⟩ := get_of_erase hget
    obtain ⟨h1, h2, h3, h4⟩ := h.task hget
    exact ⟨h1, h2, hkeep hne h3, h4⟩
  · obtain ⟨h1, h2, h3, h4, nd', hnd', hsub⟩ := h.child hget
    refine ⟨h1, h2, hkeep ?_ h3, h4, nd', hnd', hsub⟩
    rintro rfl
    rw [Option.some.inj (hnd.symm.trans hnd')] at htask
    rw [hsub] at htask
    cases htask
  · obtain ⟨hne, hp⟩ := hother hp
    refine (h.pending hp (by simp)).imp_left fun hm => ?_
    rw [Std.ExtTreeMap.mem_erase]
    exact ⟨by simpa using Ne.symm hne, hm⟩

/-- An item that settles without an output is lost to its map. -/
theorem Open.MapOpen.settle (h : w.MapOpen fl m r 0) (ht : w.tasks[k]? = some t)
    (o : BranchStatus) : (w.settle k o).MapOpen fl m r 1 := by
  rw [Work.settle_eq ht]
  refine ⟨h.maps, ⟨rfl, Work.settleFans_empty h.rest.fans _ _ _, rfl, h.rest.awaits, rfl⟩, h.size, h.next_le, h.type,
    fun hget => h.task (get_of_erase hget).2, h.child, ?_⟩
  have hc := h.count
  have hs := size_erase_old ht
  show r.done + (w.tasks.erase k).size + w.children.size + 1 = r.next
  omega

/-- An item that completes fills a slot. -/
theorem Open.MapOpen.finish (h : w.MapOpen fl m r 0) (ht : w.tasks[k]? = some t) :
    (w.finishTask k).MapOpen fl m { r with done := r.done + 1 } 0 := by
  obtain ⟨how, hnode, -, -, -⟩ := h.task ht
  have hcount : w.countDone t.owner t.node = single m { r with done := r.done + 1 } := by
    unfold Work.countDone
    rw [how, hnode]
    simp only [h.maps, get_single_self, if_true, single_insert]
  have hfin : w.finishTask k = ({ w with maps := w.countDone t.owner t.node } : Work).settle k .completed := by
    unfold Work.finishTask
    rw [ht]
  rw [hfin, hcount, @Work.settle_eq { w with maps := single m { r with done := r.done + 1 } } k t ht]
  refine ⟨rfl, ⟨rfl, Work.settleFans_empty h.rest.fans _ _ _, rfl, h.rest.awaits, rfl⟩, h.size, h.next_le, h.type,
    fun hget => h.task (get_of_erase hget).2, h.child, ?_⟩
  have hc := h.count
  have hs := size_erase_old ht
  show r.done + 1 + (w.tasks.erase k).size + w.children.size + 0 = r.next
  omega

/-! ## The end of a child -/

variable {ch : ChildState} {d : Event.ChildDone}

theorem Work.finishChild_no_maps (h : w.maps = ∅) (hc : w.children[d.instanceKey]? = some ch) :
    w.finishChild d = { w with
    children := w.children.erase d.instanceKey
    fans := w.settleFans ch.owner d.node (if d.status == "completed" then .completed else .failed) } := by
  unfold Work.finishChild
  rw [hc]
  simp only [Work.settleChild, h, get_empty, ite_self]
  rfl

theorem Open.OneChild.finish (h : w.OneChild fl d.instanceKey ch) : (w.finishChild d).Idle := by
  rw [Work.finishChild_no_maps h.rest.maps (by rw [h.children]; exact get_single_self)]
  refine ⟨h.rest.tasks, Work.settleFans_empty h.rest.fans _ _ _, h.rest.maps, h.rest.awaits, ?_⟩
  show w.children.erase d.instanceKey = ∅
  rw [h.children, single_erase]

theorem Open.FanOpen.finish (h : w.FanOpen fl fan f [])
    (hc : w.children[d.instanceKey]? = some ch) (hd : d.node = d.instanceKey) :
    ∃ o, (w.finishChild d).FanOpen fl fan { f with branches := f.branches.insert d.instanceKey o } [] := by
  obtain ⟨how, hnode, hpend, -, nd, hnd, hsub⟩ := h.child hc
  obtain ⟨fn, hfn, hft, hbr⟩ := h.type
  have hmem : d.instanceKey ∈ f.branches := Std.ExtTreeMap.mem_iff_isSome_getElem?.2 (by rw [hpend]; rfl)
  obtain ⟨o, ho⟩ : ∃ o : BranchStatus, o = if d.status == "completed" then .completed else .failed := ⟨_, rfl⟩
  have hne : o ≠ .pending := by rw [ho]; split <;> simp
  have hkeep : ∀ {a : String}, d.instanceKey ≠ a → f.branches[a]? = some .pending →
      (f.branches.insert d.instanceKey o)[a]? = some .pending := by
    intro a ha hp
    rw [get_insert, if_neg ha]
    exact hp
  refine ⟨o, ?_⟩
  rw [Work.finishChild_no_maps h.rest.maps hc, ← ho]
  refine ⟨?_, h.rest, ⟨fn, hfn, hft, fun b => ?_⟩, h.join, fun {a t} hget => ?_, fun {a ch₁} hget => ?_, fun {b} hp _ => ?_⟩
  · show w.settleFans ch.owner d.node o = _
    rw [how, hd]
    exact Work.settleFans_single h.fans _ o
  · rw [← hbr b, Std.ExtTreeMap.mem_insert]
    simp only [Std.LawfulEqCmp.compare_eq_iff_eq]
    exact ⟨fun hb => hb.elim (fun e => e ▸ hmem) id, .inr⟩
  · obtain ⟨h1, h2, h3, h4, nd', hnd', htask⟩ := h.task hget
    refine ⟨h1, h2, hkeep ?_ h3, h4, nd', hnd', htask⟩
    rintro rfl
    rw [Option.some.inj (hnd.symm.trans hnd'), htask] at hsub
    cases hsub
  · obtain ⟨ha, hget⟩ := get_of_erase hget
    obtain ⟨h1, h2, h3, h4⟩ := h.child hget
    exact ⟨h1, h2, hkeep ha h3, h4⟩
  · rcases get_of_insert hp with ⟨-, he⟩ | ⟨hb, hp⟩
    · exact absurd he hne
    · refine (h.pending hp (by simp)).imp_right fun hm => ?_
      rw [Std.ExtTreeMap.mem_erase]
      exact ⟨by simpa using hb, hm⟩

/-- A child that completes fills its slot, another is lost to the map. -/
theorem Open.MapOpen.finishChild (h : w.MapOpen fl m r 0)
    (hc : w.children[d.instanceKey]? = some ch) (hd : d.node = m) :
    if d.status == "completed" then (w.finishChild d).MapOpen fl m { r with done := r.done + 1 } 0
    else (w.finishChild d).MapOpen fl m r 1 := by
  obtain ⟨how, -, -, -, -⟩ := h.child hc
  have hget : w.maps[ch.owner]? = some r := by rw [how, h.maps, get_single_self]
  have hcnt := h.count
  have hs := size_erase_old hc
  unfold Work.finishChild
  rw [hc]
  simp only [Work.settleChild, if_pos (how.trans hd.symm), hget]
  split
  · refine ⟨?_, ⟨rfl, h.rest.fans, rfl, h.rest.awaits, rfl⟩, h.size, h.next_le, h.type, h.task,
      fun hget => h.child (get_of_erase hget).2, ?_⟩
    · show w.maps.insert ch.owner _ = _
      rw [how, h.maps, single_insert]
    · show r.done + 1 + w.tasks.size + (w.children.erase d.instanceKey).size + 0 = r.next
      omega
  · refine ⟨h.maps, ⟨rfl, h.rest.fans, rfl, h.rest.awaits, rfl⟩, h.size, h.next_le, h.type, h.task,
      fun hget => h.child (get_of_erase hget).2, ?_⟩
    show r.done + w.tasks.size + (w.children.erase d.instanceKey).size + 1 = r.next
    omega

/-! ## What is left once an instance settled -/

/-- The instance of `node` under `owner` settled: nothing else is open, or its fan-out or map is, with
`lost` of the items settled without an output. -/
inductive Freed (fl : Flow) (w : Work) (owner node : String) (lost : Nat) : Prop
  | alone (h : w.Idle) (ht : ∃ nd, fl.node node = some nd ∧ nd.type ≠ .fanout)
  | branch {f : Fan} (h : w.FanOpen fl owner f [])
  | item {r : MapWork} (h : w.MapOpen fl owner r lost) (hn : node = owner)

theorem Progress.settle_task (h : Progress fl w) (ht : w.tasks[k]? = some t) {o : BranchStatus}
    (ho : o ≠ .pending) : Freed fl (w.settle k o) t.owner t.node 1 := by
  cases h with
  | task h =>
    rw [h.tasks] at ht
    obtain ⟨rfl, rfl⟩ := get_of_single ht
    obtain ⟨nd, hnd, hty⟩ := h.type
    exact .alone (h.settle o) ⟨nd, h.node ▸ hnd, by simp [hty]⟩
  | await h _ => exact (h.rest.no_task ht).elim
  | child h => exact (h.rest.no_task ht).elim
  | fan h _ =>
    have hown := (h.task ht).1
    subst hown
    exact .branch (h.settle ht ho)
  | map h _ =>
    obtain ⟨hown, hnode, -⟩ := h.task ht
    subst hown
    exact .item (h.settle ht o) hnode

theorem Progress.finish_task (h : Progress fl w) (ht : w.tasks[k]? = some t) :
    Freed fl (w.finishTask k) t.owner t.node 0 := by
  cases h with
  | task h =>
    rw [Work.finishTask_no_maps h.rest.maps]
    rw [h.tasks] at ht
    obtain ⟨rfl, rfl⟩ := get_of_single ht
    obtain ⟨nd, hnd, hty⟩ := h.type
    exact .alone (h.settle _) ⟨nd, h.node ▸ hnd, by simp [hty]⟩
  | await h _ => exact (h.rest.no_task ht).elim
  | child h => exact (h.rest.no_task ht).elim
  | fan h _ =>
    rw [Work.finishTask_no_maps h.rest.maps]
    have hown := (h.task ht).1
    subst hown
    exact .branch (h.settle ht (by simp))
  | map h _ =>
    obtain ⟨hown, hnode, -⟩ := h.task ht
    subst hown
    exact .item (h.finish ht) hnode

theorem Progress.finish_child (h : Progress fl w) (hc : w.children[d.instanceKey]? = some ch) (hd : d.node = ch.node) :
    Freed fl (w.finishChild d) ch.owner ch.node (if d.status == "completed" then 0 else 1) := by
  cases h with
  | task h => exact (h.rest.no_child hc).elim
  | await h _ => exact (h.rest.no_child hc).elim
  | child h =>
    have hc' := hc
    rw [h.children] at hc'
    obtain ⟨rfl, rfl⟩ := get_of_single hc'
    obtain ⟨nd, hnd, hty⟩ := h.type
    exact .alone h.finish ⟨nd, h.node ▸ hnd, by simp [hty]⟩
  | fan h _ =>
    obtain ⟨hown, hnode, -⟩ := h.child hc
    subst hown
    obtain ⟨o, ho⟩ := h.finish hc (hd.trans hnode)
    exact .branch ho
  | map h _ =>
    obtain ⟨hown, hnode, -⟩ := h.child hc
    subst hown
    have hfin := h.finishChild hc (hd.trans hnode)
    split at hfin
    · rename_i hok
      rw [if_pos hok]
      exact .item hfin hnode
    · rename_i hok
      rw [if_neg hok]
      exact .item hfin hnode

/-- The tasks that are left keep their timers. -/
theorem Work.TasksDispatched.of_kept {skip skip' : String → Prop} (h : w.TasksDispatched fl base skip)
    (hk : Timers.Kept w.timers w'.timers)
    (ht : ∀ (a : String) (t : Task), w'.tasks[a]? = some t → ¬skip' a → w.tasks[a]? = some t ∧ ¬skip a) :
    w'.TasksDispatched fl base skip' := by
  intro a t hget hskip
  obtain ⟨hw, hs⟩ := ht a t hget hskip
  exact (h a t hw hs).kept hk

end Packtrail
