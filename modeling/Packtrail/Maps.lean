import Packtrail.Lineage
import Packtrail.Decisions

/-
# The books of a map

A map runs its items, at most `max_parallel` at a time, and collects their outputs. `tale m l` reads from
a history which items of the open map were started and which completed with what output.
**`map_accounts`**: between two decisions the tasks and children of an open map are exactly the started
items that have not completed, and the list a map leaves behind holds the output of item `i` at `i`.
-/

namespace Packtrail

open Replay

/-- What a history says about an open map: its items, the keys of the items started and the outputs of those
completed, in the order of their events. -/
structure Tale where
  items : List Json
  started : List String
  done : List (String × Raw)

/-- An item starts; one that is scheduled again has already started. -/
def Tale.start (t : Tale) (key : String) : Tale :=
  { t with started := if key ∈ t.started then t.started else t.started ++ [key] }

/-- The tale of map `m` once event `p` is read; `none` while the map is closed. -/
def taleStep (m : String) (t : Option Tale) : Payload → Option Tale
  | .map d => if d.node = m then some ⟨d.items, [], []⟩ else t
  | .mapDone d => if d.node = m then none else t
  | .mapAbort d => if d.node = m then none else t
  | .completed _ | .failed _ | .cancelled _ => none
  | .scheduled d => t.map fun t => t.start d.key
  | .child d => t.map fun t => t.start d.instanceKey
  | .nodeDone d => t.map fun t => { t with done := t.done ++ [(d.key, d.output)] }
  | .childDone d => t.map fun t => if d.status == "completed" then { t with done := t.done ++ [(d.instanceKey, d.output)] } else t
  | _ => t

def tale (m : String) (l : List (Request × Event)) : Option Tale := l.foldl (fun t e => taleStep m t e.2.data) none

theorem tale_snoc (m : String) (l : List (Request × Event)) (req : Request) (ev : Event) :
    tale m (l ++ [(req, ev)]) = taleStep m (tale m l) ev.data := by
  simp [tale]

/-! ## The outputs a map has collected -/

/-- The collected outputs of map `m`, as they are written. -/
def State.outputsOf (s : State) (m : String) : Option (List Json) := (s.maps[m]?).map fun r => r.outputs.map Raw.encoded

section
variable {s s' : State} {m : String} {quote : String → String} {fl : Flow} {ev : Event}

theorem State.outputsOf_encoded (s : State) (m : String) : s.encoded.outputsOf m = s.outputsOf m := by
  unfold State.outputsOf
  show ((s.maps.map fun _ r => r.encoded)[m]?).map _ = _
  rw [Std.ExtTreeMap.getElem?_map]
  cases s.maps[m]? with
  | none => rfl
  | some r => simp [MapRun.encoded, Raw.encoded, Function.comp_def]

theorem State.Alike.outputsOf (h : s.Alike s') (m : String) : s.outputsOf m = s'.outputsOf m := by
  have hmaps : s.encoded.maps = s'.encoded.maps := show s.core.maps = s'.core.maps by rw [h]
  rw [← s.outputsOf_encoded, ← s'.outputsOf_encoded]
  unfold State.outputsOf
  rw [hmaps]

theorem State.outputsOf_recordItem {owner : String} {r : MapRun} {i : Nat} {out : Raw} (hr : s.maps[owner]? = some r)
    (h : s.recordItem owner r i out = .ok s') :
    s'.outputsOf m = if owner = m then (s.outputsOf m).map (·.set i out.encoded) else s.outputsOf m := by
  unfold State.recordItem at h
  split at h
  · cases h
    unfold State.outputsOf
    show ((s.maps.insert owner _)[m]?).map _ = _
    rw [get_insert]
    by_cases ho : owner = m
    · subst ho
      rw [if_pos rfl, if_pos rfl, hr]
      simp [List.map_set]
    · rw [if_neg ho, if_neg ho]
  · cases h

/-- What a completed task leaves in its map. -/
theorem State.outputsOf_nodeDone {d : Event.NodeDone} {t : Task} (ht : s.tasks[d.key]? = some t)
    (h : s.applyNodeDone quote fl d = .ok s') :
    s'.outputsOf m = if t.owner = m ∧ t.node = t.owner then (s.outputsOf m).map (·.set t.index d.output.encoded)
      else s.outputsOf m := by
  obtain ⟨t', channels, s₁, ht', -, hs₁, rfl⟩ := State.applyNodeDone_steps h
  cases ht.symm.trans ht'
  have hset : (s₁.settleTask d.key .completed).outputsOf m = s₁.outputsOf m := by
    unfold State.settleTask
    split <;> rfl
  rw [hset]
  have hmaps : (({ s with channels } : State).addUsage d.usage).maps = s.maps := rfl
  unfold State.recordOutput at hs₁
  rw [hmaps] at hs₁
  cases hr : s.maps[t.owner]? with
  | none =>
    rw [hr] at hs₁
    cases hs₁
    have hnone : t.owner = m → s.outputsOf m = none := by
      rintro rfl
      unfold State.outputsOf
      rw [hr]
      rfl
    by_cases hown : t.owner = m ∧ t.node = t.owner
    · rw [if_pos hown, hnone hown.1]
      exact hnone hown.1
    · rw [if_neg hown]
      rfl
  | some r =>
    rw [hr] at hs₁
    simp only at hs₁
    split at hs₁
    · rename_i hnode
      have hr' : (({ s with channels } : State).addUsage d.usage).maps[t.owner]? = some r := hr
      rw [State.outputsOf_recordItem hr' hs₁]
      simp only [hnode, and_true]
      rfl
    · rename_i hnode
      cases hs₁
      rw [if_neg (fun hand => hnode hand.2)]
      rfl

/-- What a completed child leaves in its map. -/
theorem State.outputsOf_childDone {d : Event.ChildDone} {c : ChildState} (hc : s.children[d.instanceKey]? = some c)
    (h : s.applyChildDone d = .ok s') :
    s'.outputsOf m = if c.owner = m ∧ c.owner = d.node ∧ (d.status == "completed") = true then
      (s.outputsOf m).map (·.set c.index d.output.encoded) else s.outputsOf m := by
  unfold State.applyChildDone at h
  simp only [hc] at h
  obtain ⟨s₁, hs₁⟩ : ∃ s₁, s₁ = ({ s with children := s.children.erase d.instanceKey } : State).addUsage d.counters :=
    ⟨_, rfl⟩
  have hmaps : s₁.maps = s.maps := by rw [hs₁]; rfl
  have hout : s₁.outputsOf m = s.outputsOf m := by unfold State.outputsOf; rw [hmaps]
  rw [← hs₁] at h
  by_cases ho : c.owner = d.node
  · simp only [ho, if_true] at h ⊢
    cases hr : s₁.maps[d.node]? with
    | none =>
      simp only [hr] at h
      have hsame : s'.outputsOf m = s₁.outputsOf m := by cases h; rfl
      have hnone : d.node = m → s.outputsOf m = none := by
        rintro rfl
        unfold State.outputsOf
        rw [← hmaps, hr]
        rfl
      rw [hsame, hout]
      split
      · rename_i hand
        rw [hnone hand.1]
        rfl
      · rfl
    | some r =>
      simp only [hr] at h
      split at h
      · rename_i hok
        rw [State.outputsOf_recordItem hr h, hout]
        simp only [hok, and_true]
      · rename_i hok
        cases h
        rw [if_neg (fun hand => hok hand.2.2)]
        exact hout
  · simp only [ho, if_false] at h
    have hsame : s'.outputsOf m = s₁.outputsOf m := by cases h; rfl
    rw [hsame, hout, if_neg (fun hand => ho hand.2.1)]

/-- Events that leave the collected outputs alone. -/
def Payload.sparesOutputs : Payload → Bool
  | .forked _ | .continued _ | .completed _ | .failed _ | .cancelled _ => false
  | .map _ | .mapDone _ | .mapAbort _ | .nodeDone _ | .childDone _ => false
  | _ => true

theorem State.outputsOf_raiseNext {owner node : String} {index : Nat} :
    ((s.raiseNext owner node index)[m]?).map (fun r => r.outputs.map Raw.encoded) = s.outputsOf m := by
  unfold State.raiseNext State.outputsOf
  cases hr : s.maps[owner]? with
  | none => rfl
  | some r =>
    simp only
    split
    · rw [get_insert]
      split
      · rename_i he
        rw [← he, hr]
        rfl
      · rfl
    · rfl

theorem State.outputsOf_spared (hp : ev.data.sparesOutputs = true) (h : s.apply quote fl ev = .ok s') :
    s'.outputsOf m = s.outputsOf m := by
  obtain ⟨-, s₁, hs₁, rfl⟩ := State.apply_ok.1 h
  show s₁.outputsOf m = _
  unfold State.applyData at hs₁
  cases hd : ev.data with
  | scheduled d =>
    rw [hd] at hs₁
    cases hs₁
    exact State.outputsOf_raiseNext
  | child d =>
    rw [hd] at hs₁
    cases hs₁
    exact State.outputsOf_raiseNext
  | nodeFail d =>
    rw [hd] at hs₁
    cases hs₁
    unfold State.applyNodeFail
    split
    · rfl
    · simp only
      split
      · rfl
      · unfold State.settleTask
        split <;> rfl
  | nodeCancel d =>
    rw [hd] at hs₁
    cases hs₁
    unfold State.settleTask
    split <;> rfl
  | interrupted d =>
    rw [hd] at hs₁
    simp only [State.applyInterrupted] at hs₁
    split at hs₁ <;> cases hs₁
    rfl
  | update d =>
    rw [hd] at hs₁
    simp only [State.applyUpdate] at hs₁
    split at hs₁ <;> cases hs₁
    rfl
  | signalUse d =>
    rw [hd] at hs₁
    simp only [State.applySignalUse] at hs₁
    split at hs₁ <;> cases hs₁
    rfl
  | join d =>
    rw [hd] at hs₁
    cases hs₁
    unfold State.applyJoin
    simp only [State.outputsOf]
    split <;> rfl
  | _ =>
    rw [hd] at hs₁ hp
    first
    | cases hp; done
    | (cases hs₁; rfl)

end

/-! ## The books at every event -/

/-- The books of the open map `m`: `r` is its record and `outs` the outputs it has collected. -/
structure Told (m : Node) (o : Open) (outs : List Json) (t : Tale) (r : MapWork) : Prop where
  maps : o.maps = single m.id r
  fans : o.fans = ∅
  items : r.items = t.items
  parallel : r.maxParallel = m.maxParallel
  started : t.started = (List.range r.next).map (itemKey m.id)
  next_le : r.next ≤ r.items.length
  task : ∀ {k : String} {tk}, o.tasks[k]? = some tk → tk.owner = m.id ∧ tk.node = m.id ∧ tk.index < r.next ∧
    k = itemKey m.id tk.index ∧ tk.item = r.items[tk.index]? ∧ k ∉ t.done.map Prod.fst ∧ o.children[k]? = none
  child : ∀ {k : String} {ch}, o.children[k]? = some ch → ch.owner = m.id ∧ ch.node = m.id ∧ ch.index < r.next ∧
    k = itemKey m.id ch.index ∧ k ∉ t.done.map Prod.fst
  distinct : (t.done.map Prod.fst).Nodup
  done : ∀ e ∈ t.done, ∃ i < r.next, e.1 = itemKey m.id i ∧ outs[i]? = some e.2.encoded
  count : r.done = t.done.length
  length : outs.length = r.items.length
  room : (r.next : Int) - r.done ≤ r.limit

/-- Map `m` is closed, or its books are those of the tale `t`. -/
def Telling (m : Node) (s : State) : Option Tale → Prop
  | none => m.id ∉ s.work.maps
  | some t => ∃ outs r, s.outputsOf m.id = some outs ∧ Told m s.work.toOpen outs t r

section
variable {m : Node} {o o' : Open} {outs : List Json} {t : Tale} {r : MapWork} {k : String} {w : Work}

theorem Told.not_idle (h : Told m o outs t r) (hi : o.Idle) : False := by
  have hget : (single m.id r)[m.id]? = (∅ : SMap MapWork)[m.id]? := by rw [← h.maps, hi.maps]
  rw [get_single_self, get_empty] at hget
  cases hget

theorem MapWork.limit_pos (r : MapWork) : 0 < r.limit := by
  unfold MapWork.limit defaultMapParallel
  split <;> omega

/-- Nothing completes; what is in flight was so before. -/
theorem Told.keep (h : Told m o outs t r) (hmaps : o'.maps = o.maps) (hfans : o'.fans = ∅)
    (htask : ∀ {k : String} {tk}, o'.tasks[k]? = some tk → ∃ tk₀, o.tasks[k]? = some tk₀ ∧ tk.owner = tk₀.owner ∧
      tk.node = tk₀.node ∧ tk.index = tk₀.index ∧ tk.item = tk₀.item)
    (hchild : ∀ {k : String} {ch}, o'.children[k]? = some ch → ∃ ch₀, o.children[k]? = some ch₀ ∧ ch.owner = ch₀.owner ∧
      ch.node = ch₀.node ∧ ch.index = ch₀.index) : Told m o' outs t r :=
  { h with
    maps := hmaps.trans h.maps
    fans := hfans
    task := fun {k tk} hget => by
      obtain ⟨tk₀, hget₀, h1, h2, h3, h4⟩ := htask hget
      obtain ⟨g1, g2, g3, g4, g5, g6, g7⟩ := h.task hget₀
      rw [h1, h2, h3, h4]
      refine ⟨g1, g2, g3, g4, g5, g6, ?_⟩
      by_contra hne
      obtain ⟨ch, hch⟩ := Option.ne_none_iff_exists'.1 hne
      obtain ⟨ch₀, hch₀, -⟩ := hchild hch
      rw [hch₀] at g7
      cases g7
    child := fun {k ch} hget => by
      obtain ⟨ch₀, hget₀, h1, h2, h3⟩ := hchild hget
      rw [h1, h2, h3]
      exact h.child hget₀ }

/-- The item at `k` completes with output `out`. -/
theorem Told.finish (h : Told m o outs t r) {i : Nat} {out : Raw} (hi : i < r.next) (hk : k = itemKey m.id i)
    (hnew : k ∉ t.done.map Prod.fst) (hmaps : o'.maps = single m.id { r with done := r.done + 1 }) (hfans : o'.fans = ∅)
    (htask : ∀ {k' : String} {tk}, o'.tasks[k']? = some tk → k' ≠ k ∧ o.tasks[k']? = some tk)
    (hchild : ∀ {k' : String} {ch}, o'.children[k']? = some ch → k' ≠ k ∧ o.children[k']? = some ch) :
    Told m o' (outs.set i out.encoded) { t with done := t.done ++ [(k, out)] } { r with done := r.done + 1 } where
  maps := hmaps
  fans := hfans
  items := h.items
  parallel := h.parallel
  started := h.started
  next_le := h.next_le
  task hget := by
    obtain ⟨hne, hget⟩ := htask hget
    obtain ⟨g1, g2, g3, g4, g5, g6, g7⟩ := h.task hget
    refine ⟨g1, g2, g3, g4, g5, by simp [g6, hne], ?_⟩
    by_contra hsome
    obtain ⟨ch, hch⟩ := Option.ne_none_iff_exists'.1 hsome
    rw [(hchild hch).2] at g7
    cases g7
  child hget := by
    obtain ⟨hne, hget⟩ := hchild hget
    obtain ⟨g1, g2, g3, g4, g5⟩ := h.child hget
    exact ⟨g1, g2, g3, g4, by simp [g5, hne]⟩
  distinct := by
    rw [List.map_append, List.nodup_append]
    refine ⟨h.distinct, List.nodup_singleton _, fun a ha b hb he => hnew ?_⟩
    have hb : b = k := by simpa using hb
    rw [← hb, ← he]
    exact ha
  done e he := by
    rcases List.mem_append.1 he with he | he
    · obtain ⟨j, hj, hkey, hout⟩ := h.done e he
      refine ⟨j, hj, hkey, ?_⟩
      have hne : i ≠ j := by
        rintro rfl
        exact hnew (hk ▸ hkey ▸ List.mem_map_of_mem he)
      rw [List.getElem?_set_ne hne]
      exact hout
    · obtain rfl := List.mem_singleton.1 he
      refine ⟨i, hi, hk, ?_⟩
      have hlt : i < outs.length := by
        have := h.next_le
        have := h.length
        omega
      rw [List.getElem?_set_self hlt]
  count := by simp [h.count]
  length := by rw [List.length_set]; exact h.length
  room := by
    have := h.room
    show ((r.next : Int) - ((r.done + 1 : Nat) : Int)) ≤ r.limit
    push_cast
    omega

theorem Tale.start_known (h : k ∈ t.started) : t.start k = t := by
  unfold Tale.start
  rw [if_pos h]

theorem Told.mem_started (h : Told m o outs t r) : k ∈ t.started ↔ ∃ i < r.next, k = itemKey m.id i := by
  rw [h.started]
  simp only [List.mem_map, List.mem_range]
  constructor
  · rintro ⟨i, hi, rfl⟩
    exact ⟨i, hi, rfl⟩
  · rintro ⟨i, hi, rfl⟩
    exact ⟨i, hi, rfl⟩

/-- The next item starts, as a task or as a child. -/
theorem Told.start (h : Told m o outs t r) (hk : k = itemKey m.id r.next) (hlt : r.next < r.items.length)
    (hroom : (r.next : Int) - r.done < r.limit) (hmaps : o'.maps = single m.id { r with next := r.next + 1 })
    (hfans : o'.fans = ∅) (hfree : o.tasks[k]? = none ∧ o.children[k]? = none)
    (htask : ∀ {k' : String} {tk}, o'.tasks[k']? = some tk → o.tasks[k']? = some tk ∨
      k' = k ∧ tk.owner = m.id ∧ tk.node = m.id ∧ tk.index = r.next ∧ tk.item = r.items[r.next]?)
    (hchild : ∀ {k' : String} {ch}, o'.children[k']? = some ch → o.children[k']? = some ch ∨
      k' = k ∧ ch.owner = m.id ∧ ch.node = m.id ∧ ch.index = r.next)
    (hapart : o'.tasks[k]? = none ∨ o'.children[k]? = none) :
    Told m o' outs (t.start k) { r with next := r.next + 1 } := by
  have hnot : k ∉ t.started := by
    rw [h.mem_started]
    rintro ⟨i, hi, he⟩
    have := itemKey_inj (hk.symm.trans he)
    omega
  have hnotdone : k ∉ t.done.map Prod.fst := by
    intro hmem
    obtain ⟨e, he, hek⟩ := List.mem_map.1 hmem
    obtain ⟨i, hi, hkey, -⟩ := h.done e he
    have := itemKey_inj (hk.symm.trans (hek.symm.trans hkey))
    omega
  have hstart : t.start k = { t with started := t.started ++ [k] } := by
    unfold Tale.start
    rw [if_neg hnot]
  rw [hstart]
  refine ⟨hmaps, hfans, h.items, h.parallel, ?_, hlt, fun {k' tk} hget => ?_, fun {k' ch} hget => ?_, h.distinct,
    fun e he => ?_, h.count, h.length, ?_⟩
  · show t.started ++ [k] = (List.range (r.next + 1)).map _
    rw [List.range_succ, List.map_append, h.started, hk]
    rfl
  · have hno : o'.children[k']? = none := by
      by_contra hne
      obtain ⟨ch, hch⟩ := Option.ne_none_iff_exists'.1 hne
      rcases hchild hch with hch₀ | ⟨rfl, -⟩
      · rcases htask hget with htk₀ | ⟨rfl, -⟩
        · rw [(h.task htk₀).2.2.2.2.2.2] at hch₀
          cases hch₀
        · rw [hfree.2] at hch₀
          cases hch₀
      · rcases hapart with hn | hn
        · rw [hn] at hget
          cases hget
        · exact hne hn
    rcases htask hget with htk₀ | ⟨rfl, g1, g2, g3, g4⟩
    · obtain ⟨g1, g2, g3, g4, g5, g6, -⟩ := h.task htk₀
      exact ⟨g1, g2, Nat.lt_succ_of_lt g3, g4, g5, g6, hno⟩
    · refine ⟨g1, g2, ?_, ?_, ?_, hnotdone, hno⟩
      · rw [g3]
        exact Nat.lt_succ_self _
      · rw [g3]
        exact hk
      · rw [g3]
        exact g4
  · rcases hchild hget with hch₀ | ⟨rfl, g1, g2, g3⟩
    · obtain ⟨g1, g2, g3, g4, g5⟩ := h.child hch₀
      exact ⟨g1, g2, Nat.lt_succ_of_lt g3, g4, g5⟩
    · refine ⟨g1, g2, ?_, ?_, hnotdone⟩
      · rw [g3]
        exact Nat.lt_succ_self _
      · rw [g3]
        exact hk
  · obtain ⟨i, hi, hrest⟩ := h.done e he
    exact ⟨i, Nat.lt_succ_of_lt hi, hrest⟩
  · show ((r.next + 1 : Nat) : Int) - r.done ≤ r.limit
    push_cast
    omega

theorem settleFans_none (h : w.fans = ∅) (owner node : String) (out : BranchStatus) : w.settleFans owner node out = ∅ := by
  unfold Work.settleFans
  rw [h, get_empty]

theorem raiseNext_single (h : w.maps = single m.id r) (index : Nat) :
    w.raiseNext m.id m.id index = single m.id { r with next := max r.next (index + 1) } := by
  unfold Work.raiseNext
  rw [h, get_single_self]
  simp only [if_true]
  exact single_insert

theorem countDone_single (h : w.maps = single m.id r) : w.countDone m.id m.id = single m.id { r with done := r.done + 1 } := by
  unfold Work.countDone
  rw [h, get_single_self]
  simp only [if_true]
  exact single_insert

/-- An item leaves without an output. -/
theorem Told.settle (h : Told m w.toOpen outs t r) {tk : Task} (hk : w.tasks[k]? = some tk) (out : BranchStatus) :
    Told m (w.settle k out).toOpen outs t r := by
  rw [Work.settle_eq hk]
  refine h.keep rfl (settleFans_none h.fans _ _ _) (fun hget => ?_) fun hget => ⟨_, hget, rfl, rfl, rfl⟩
  exact ⟨_, (get_of_erase hget).2, rfl, rfl, rfl, rfl⟩

theorem Told.setStatus (h : Told m w.toOpen outs t r) {g : Task → Task}
    (hg : ∀ tk, (g tk).owner = tk.owner ∧ (g tk).node = tk.node ∧ (g tk).index = tk.index ∧ (g tk).item = tk.item) :
    Told m (w.setStatus k g).toOpen outs t r := by
  unfold Work.setStatus
  cases hk : w.tasks[k]? with
  | none => exact h
  | some tk =>
    refine h.keep rfl h.fans (fun hget => ?_) fun hget => ⟨_, hget, rfl, rfl, rfl⟩
    rcases get_of_insert hget with ⟨rfl, rfl⟩ | ⟨-, hget⟩
    · exact ⟨tk, hk, hg tk⟩
    · exact ⟨_, hget, rfl, rfl, rfl, rfl⟩

theorem Told.finishTask (h : Told m w.toOpen outs t r) {tk : Task} (hk : w.tasks[k]? = some tk) (out : Raw) :
    Told m (w.finishTask k).toOpen (outs.set tk.index out.encoded) { t with done := t.done ++ [(k, out)] }
      { r with done := r.done + 1 } := by
  obtain ⟨g1, g2, g3, g4, -, g6, g7⟩ := h.task hk
  unfold Work.finishTask
  simp only [hk]
  rw [@Work.settle_eq { w with maps := w.countDone tk.owner tk.node } k tk hk]
  refine h.finish g3 g4 g6 ?_ (settleFans_none h.fans _ _ _) (fun hget => ?_) fun {k' ch} hget => ⟨?_, hget⟩
  · show w.countDone tk.owner tk.node = _
    rw [g1, g2]
    exact countDone_single h.maps
  · obtain ⟨hne, hget⟩ := get_of_erase hget
    exact ⟨Ne.symm hne, hget⟩
  · rintro rfl
    have hget : w.children[k']? = some ch := hget
    rw [g7] at hget
    cases hget

theorem Told.finishChild (h : Told m w.toOpen outs t r) {d : Event.ChildDone} {ch : ChildState}
    (hch : w.children[d.instanceKey]? = some ch) (hnode : ch.node = d.node) :
    if d.status == "completed" then
      Told m (w.finishChild d).toOpen (outs.set ch.index d.output.encoded)
        { t with done := t.done ++ [(d.instanceKey, d.output)] } { r with done := r.done + 1 }
    else Told m (w.finishChild d).toOpen outs t r := by
  obtain ⟨g1, g2, g3, g4, g5⟩ := h.child hch
  have hmap : (if ch.owner = d.node then w.maps[ch.owner]? else none) = some r := by
    rw [if_pos (g1.trans (g2.symm.trans hnode)), g1, h.maps, get_single_self]
  unfold Work.finishChild
  simp only [hch, Work.settleChild, hmap]
  have gone : ∀ {k' : String} {ch'}, (w.children.erase d.instanceKey)[k']? = some ch' →
      k' ≠ d.instanceKey ∧ w.children[k']? = some ch' := by
    intro k' ch' hget
    obtain ⟨hne, hget⟩ := get_of_erase hget
    exact ⟨Ne.symm hne, hget⟩
  split
  · refine h.finish g3 g4 g5 ?_ h.fans (fun {k' tk} hget => ⟨?_, hget⟩) gone
    · show w.maps.insert ch.owner _ = _
      rw [g1, h.maps]
      exact single_insert
    · rintro rfl
      rw [(h.task hget).2.2.2.2.2.2] at hch
      cases hch
  · refine h.keep rfl h.fans (fun hget => ⟨_, hget, rfl, rfl, rfl, rfl⟩) fun hget => ⟨_, (gone hget).2, rfl, rfl, rfl⟩

section
variable {s s' : State} {cause : Cause} {base : Nat} {x : Ext} {fl : Flow}

variable {key node owner : String} {ev : Event}

variable (h : Told m s.work.toOpen outs t r)

include h

/-- An instance that starts while the map is open is its next item. -/
theorem Told.place {index : Nat} {item : Raw}
    (hp : Place s key node owner index item) :
    owner = m.id ∧ node = m.id ∧ index = r.next ∧ key = itemKey m.id r.next ∧ item = r.items[r.next]? ∧
    r.next < r.items.length ∧ (r.next : Int) - r.done < r.limit := by
  cases hp with
  | alone idle => exact (h.not_idle idle).elim
  | branch hfan =>
    have hget : s.work.fans[owner]? = some _ := hfan
    rw [h.fans, get_empty] at hget
    cases hget
  | item hmap _ hnode hkey hindex hitem hsome hroom =>
    rw [h.maps] at hmap
    obtain ⟨rfl, rfl⟩ := get_of_single hmap
    subst hindex
    refine ⟨rfl, hnode, rfl, hkey, hitem, ?_, hroom⟩
    rw [hitem] at hsome
    obtain ⟨v, hv⟩ := Option.isSome_iff_exists.1 hsome
    exact (List.getElem?_eq_some_iff.1 hv).1

theorem Told.scheduled {d : Event.Scheduled}
    (ha : (Payload.scheduled d).Apt cause fl s) :
    ∃ r', Told m (s.work.schedule d).toOpen outs (t.start d.key) r' := by
  rcases ha with ⟨hfree, hplace, -⟩ | ⟨tk, htk, hof, -⟩
  · obtain ⟨g1, g2, g3, g4, g5, g6, g7⟩ := h.place hplace
    refine ⟨_, h.start g4 g6 g7 ?_ h.fans ⟨hfree.task, hfree.child⟩ (fun hget => ?_) (fun hget => .inl hget) (.inr hfree.child)⟩
    · show s.work.raiseNext d.owner d.node d.index = _
      rw [g1, g2, g3, raiseNext_single h.maps, max_eq_right (Nat.le_succ _)]
    · rcases get_of_insert hget with ⟨rfl, rfl⟩ | ⟨-, hget⟩
      · exact .inr ⟨rfl, g1, g2, g3, g5⟩
      · exact .inl hget
  · obtain ⟨g1, g2, g3, g4, -⟩ := h.task htk
    refine ⟨r, ?_⟩
    rw [Tale.start_known (h.mem_started.2 ⟨tk.index, g3, g4⟩)]
    refine h.keep ?_ h.fans (fun hget => ?_) fun hget => ⟨_, hget, rfl, rfl, rfl⟩
    · show s.work.raiseNext d.owner d.node d.index = s.work.maps
      rw [hof.owner, hof.node, hof.index, g1, g2, raiseNext_single h.maps, max_eq_left g3, h.maps]
    · rcases get_of_insert hget with ⟨rfl, rfl⟩ | ⟨-, hget⟩
      · exact ⟨tk, htk, hof.owner, hof.node, hof.index, hof.item⟩
      · exact ⟨_, hget, rfl, rfl, rfl, rfl⟩

theorem Told.startChild {d : Event.Child} (ha : (Payload.child d).Apt cause fl s) :
    ∃ r', Told m (s.work.startChild d).toOpen outs (t.start d.instanceKey) r' := by
  rcases ha with ⟨hfree, item, hplace⟩ | ⟨-, ch, hch, hnode, howner, hindex⟩
  · obtain ⟨g1, g2, g3, g4, -, g6, g7⟩ := h.place hplace
    refine ⟨_, h.start g4 g6 g7 ?_ h.fans ⟨hfree.task, hfree.child⟩ (fun hget => .inl hget) (fun hget => ?_) (.inl hfree.task)⟩
    · show s.work.raiseNext d.owner d.node d.index = _
      rw [g1, g2, g3, raiseNext_single h.maps, max_eq_right (Nat.le_succ _)]
    · rcases get_of_insert hget with ⟨rfl, rfl⟩ | ⟨-, hget⟩
      · exact .inr ⟨rfl, g1, g2, g3⟩
      · exact .inl hget
  · obtain ⟨g1, g2, g3, g4, -⟩ := h.child hch
    refine ⟨r, ?_⟩
    rw [Tale.start_known (h.mem_started.2 ⟨ch.index, g3, g4⟩)]
    refine h.keep ?_ h.fans (fun hget => ⟨_, hget, rfl, rfl, rfl, rfl⟩) fun hget => ?_
    · show s.work.raiseNext d.owner d.node d.index = s.work.maps
      rw [← howner, ← hnode, ← hindex, g1, g2, raiseNext_single h.maps, max_eq_left g3, h.maps]
    · rcases get_of_insert hget with ⟨rfl, rfl⟩ | ⟨-, hget⟩
      · exact ⟨ch, hch, howner.symm, hnode.symm, hindex.symm⟩
      · exact ⟨_, hget, rfl, rfl, rfl⟩

/-- The step of the books, while the map is open. -/
theorem Told.step (houts : s.outputsOf m.id = some outs)
    (ho : Offer fl base s ev.data) (ha : ev.data.Apt cause fl s) (hf : ev.data.isForked = false)
    (happ : s.apply x.quote fl ev = .ok s') : Telling m s' (taleStep m.id (some t) ev.data) := by
  have hwork := State.apply_work happ
  have spared : ev.data.sparesOutputs = true → s'.outputsOf m.id = some outs :=
    fun hp => (State.outputsOf_spared hp happ).trans houts
  obtain ⟨-, s₁, hs₁, hfin⟩ := State.apply_ok.1 happ
  have houts₁ : s'.outputsOf m.id = s₁.outputsOf m.id := by rw [hfin]; rfl
  cases hd : ev.data with
  | forked d => rw [hd] at hf; cases hf
  | continued d =>
    rw [hd] at hwork ho
    rw [ho.continued_work] at hwork
    refine ⟨outs, r, ?_, by rw [hwork]; exact h⟩
    simp only [State.applyData, hd] at hs₁
    cases hs₁
    obtain ⟨seg, q, hstate⟩ := ho
    rw [houts₁, ← houts, ← s.outputsOf_encoded]
    show (unmarshal d.state).outputsOf m.id = _
    rw [hstate]
    exact State.outputsOf_encoded { s.encoded with segments := s.segments ++ [seg], lastSeq := q } m.id
  | completed d => rw [hd] at hwork; show m.id ∉ s'.work.maps; rw [hwork]; exact Std.ExtTreeMap.not_mem_empty
  | failed d => rw [hd] at hwork; show m.id ∉ s'.work.maps; rw [hwork]; exact Std.ExtTreeMap.not_mem_empty
  | cancelled d => rw [hd] at hwork; show m.id ∉ s'.work.maps; rw [hwork]; exact Std.ExtTreeMap.not_mem_empty
  | scheduled d =>
    rw [hd] at hwork ha
    obtain ⟨r', h'⟩ := h.scheduled ha
    exact ⟨outs, r', spared (by rw [hd]; rfl), by rw [hwork]; exact h'⟩
  | child d =>
    rw [hd] at hwork ha
    obtain ⟨r', h'⟩ := h.startChild ha
    exact ⟨outs, r', spared (by rw [hd]; rfl), by rw [hwork]; exact h'⟩
  | nodeDone d =>
    rw [hd] at hwork ho
    obtain ⟨tk, htk, -⟩ := ho
    obtain ⟨g1, g2, -⟩ := h.task htk
    simp only [State.applyData, hd] at hs₁
    refine ⟨_, _, ?_, by rw [hwork]; exact h.finishTask htk d.output⟩
    rw [houts₁, State.outputsOf_nodeDone htk hs₁, if_pos ⟨g1, g2.trans g1.symm⟩, houts]
    rfl
  | childDone d =>
    rw [hd] at hwork ha
    obtain ⟨-, ch, hch, hnode⟩ := ha
    obtain ⟨g1, g2, -⟩ := h.child hch
    simp only [State.applyData, hd] at hs₁
    have hstep := h.finishChild hch hnode
    have hnew := @State.outputsOf_childDone s s₁ m.id d ch hch hs₁
    simp only [taleStep, Option.map_some]
    by_cases hok : (d.status == "completed") = true
    · rw [if_pos hok] at hstep ⊢
      rw [if_pos ⟨g1, g1.trans (g2.symm.trans hnode), hok⟩, houts] at hnew
      exact ⟨_, _, houts₁.trans hnew, by rw [hwork]; exact hstep⟩
    · rw [if_neg hok] at hstep ⊢
      rw [if_neg fun hand => hok hand.2.2, houts] at hnew
      exact ⟨_, _, houts₁.trans hnew, by rw [hwork]; exact hstep⟩
  | nodeFail d =>
    rw [hd] at hwork ho
    obtain ⟨⟨tk, htk, -⟩, -⟩ := ho
    refine ⟨outs, r, spared (by rw [hd]; rfl), ?_⟩
    rw [hwork]
    simp only [Work.step]
    split
    · exact h.setStatus fun _ => ⟨rfl, rfl, rfl, rfl⟩
    · exact h.settle htk _
  | interrupted d =>
    rw [hd] at hwork
    exact ⟨outs, r, spared (by rw [hd]; rfl), by rw [hwork]; exact h.setStatus fun _ => ⟨rfl, rfl, rfl, rfl⟩⟩
  | nodeCancel d =>
    rw [hd] at hwork ho
    obtain ⟨tk, htk⟩ := ho
    exact ⟨outs, r, spared (by rw [hd]; rfl), by rw [hwork]; exact h.settle htk _⟩
  | fanout d => rw [hd] at ha; exact (h.not_idle ha.1).elim
  | map d => rw [hd] at ha; exact (h.not_idle ha.1).elim
  | join d =>
    rw [hd] at ho
    have hget : (s.work.fans[d.fanout]?).isSome = true := ho.1
    rw [h.fans, get_empty] at hget
    cases hget
  | mapDone d =>
    rw [hd] at ha hwork
    obtain ⟨-, r', hr', -⟩ := ha
    rw [h.maps] at hr'
    obtain ⟨hm, -⟩ := get_of_single hr'
    simp only [taleStep, hm, if_true]
    show m.id ∉ s'.work.maps
    rw [hwork]
    show m.id ∉ s.work.maps.erase d.node
    rw [h.maps, hm, single_erase]
    exact Std.ExtTreeMap.not_mem_empty
  | mapAbort d =>
    rw [hd] at ha hwork
    have hidle : s.work.maps.erase d.node = ∅ := Open.Idle.maps ha
    have hm : d.node = m.id := by
      by_contra hne
      have hget : (s.work.maps.erase d.node)[m.id]? = some r := by
        rw [get_erase, if_neg hne, h.maps, get_single_self]
      rw [hidle, get_empty] at hget
      cases hget
    simp only [taleStep, hm, if_true]
    show m.id ∉ s'.work.maps
    rw [hwork]
    show m.id ∉ s.work.maps.erase d.node
    rw [hidle]
    exact Std.ExtTreeMap.not_mem_empty
  | _ =>
    rw [hd] at hwork
    refine ⟨outs, r, spared (by rw [hd]; rfl), ?_⟩
    rw [hwork]
    exact h.keep rfl h.fans (fun hget => ⟨_, hget, rfl, rfl, rfl, rfl⟩) fun hget => ⟨_, hget, rfl, rfl, rfl⟩

omit h

theorem mem_raiseNext {index : Nat} (h : k ∈ w.raiseNext owner node index) : k ∈ w.maps := by
  unfold Work.raiseNext at h
  split at h
  · rename_i r hr
    split at h
    · rcases Std.ExtTreeMap.mem_insert.1 h with he | hmem
      · exact Std.LawfulEqCmp.compare_eq_iff_eq.1 he ▸ mem_of_get hr
      · exact hmem
    · exact h
  · exact h

theorem mem_countDone (h : k ∈ w.countDone owner node) : k ∈ w.maps := by
  unfold Work.countDone at h
  split at h
  · rename_i r hr
    split at h
    · rcases Std.ExtTreeMap.mem_insert.1 h with he | hmem
      · exact Std.LawfulEqCmp.compare_eq_iff_eq.1 he ▸ mem_of_get hr
      · exact hmem
    · exact h
  · exact h

theorem mem_finishChild {d : Event.ChildDone} (h : k ∈ (w.finishChild d).maps) : k ∈ w.maps := by
  unfold Work.finishChild at h
  simp only at h
  split at h
  · exact h
  · unfold Work.settleChild at h
    simp only at h
    split at h
    · rename_i ch _ r hr
      split at h
      · rcases Std.ExtTreeMap.mem_insert.1 h with he | hmem
        · split at hr
          · exact Std.LawfulEqCmp.compare_eq_iff_eq.1 he ▸ mem_of_get hr
          · cases hr
        · exact hmem
      · exact h
    · exact h

theorem mem_maps_setStatus {g : Task → Task} (h : k ∈ (w.setStatus key g).maps) : k ∈ w.maps := by
  unfold Work.setStatus at h
  split at h <;> exact h

theorem mem_maps_settle {out : BranchStatus} (h : k ∈ (w.settle key out).maps) : k ∈ w.maps := by
  unfold Work.settle at h
  split at h <;> exact h

theorem mem_maps_step {p : Payload} (ho : Offer fl base s p) (hm : ∀ d, p ≠ .map d) (hf : p.isForked = false)
    (h : k ∈ (s.work.step p).maps) : k ∈ s.work.maps := by
  cases p with
  | map d => exact absurd rfl (hm d)
  | forked d => cases hf
  | continued d =>
    rw [ho.continued_work] at h
    exact h
  | completed d => exact absurd h Std.ExtTreeMap.not_mem_empty
  | failed d => exact absurd h Std.ExtTreeMap.not_mem_empty
  | cancelled d => exact absurd h Std.ExtTreeMap.not_mem_empty
  | scheduled d => exact mem_raiseNext h
  | child d => exact mem_raiseNext h
  | childDone d => exact mem_finishChild h
  | nodeDone d =>
    obtain ⟨tk, htk, -⟩ := ho
    simp only [Work.step, Work.finishTask, htk] at h
    exact mem_countDone (mem_maps_settle h)
  | nodeFail d =>
    simp only [Work.step] at h
    split at h
    · exact mem_maps_setStatus h
    · exact mem_maps_settle h
  | nodeCancel d => exact mem_maps_settle h
  | interrupted d => exact mem_maps_setStatus h
  | mapDone d => exact (Std.ExtTreeMap.mem_erase.1 h).2
  | mapAbort d => exact (Std.ExtTreeMap.mem_erase.1 h).2
  | _ => exact h

/-- The map opens with nothing started. -/
theorem Told.opened {d : Event.Map} (hi : w.Idle) (hnode : d.node = m.id) (hpar : m.maxParallel = d.maxParallel) :
    Told m (w.openMap d).toOpen (d.items.map fun _ => .null) ⟨d.items, [], []⟩ ⟨d.items, d.items.length, 0, 0, d.maxParallel⟩ where
  maps := by
    show w.maps.insert d.node _ = _
    rw [hi.maps, hnode]
    rfl
  fans := hi.fans
  items := rfl
  parallel := hpar.symm
  started := rfl
  next_le := Nat.zero_le _
  task hget := (hi.no_task hget).elim
  child hget := (hi.no_child hget).elim
  distinct := List.nodup_nil
  done e he := by cases he
  count := rfl
  length := by simp
  room := by
    have := MapWork.limit_pos ⟨d.items, d.items.length, 0, 0, d.maxParallel⟩
    simp only [Nat.cast_zero]
    omega

/-- Only the map's own start opens it. -/
theorem untold_step (hm : fl.node m.id = some m) (h : m.id ∉ s.work.maps) (ho : Offer fl base s ev.data)
    (ha : ev.data.Apt cause fl s) (hf : ev.data.isForked = false) (happ : s.apply x.quote fl ev = .ok s') :
    Telling m s' (taleStep m.id none ev.data) := by
  have hwork := State.apply_work happ
  cases hd : ev.data with
  | map d =>
    rw [hd] at hwork ha
    obtain ⟨hi, n, hn, hpar⟩ := ha
    simp only [taleStep]
    split
    · rename_i hnode
      rw [hnode, hm] at hn
      cases hn
      refine ⟨_, _, ?_, by rw [hwork]; exact Told.opened hi hnode hpar⟩
      obtain ⟨-, s₁, hs₁, rfl⟩ := State.apply_ok.1 happ
      simp only [State.applyData, hd] at hs₁
      cases hs₁
      unfold State.outputsOf
      show ((s.maps.insert d.node _)[m.id]?).map _ = _
      rw [get_insert, if_pos hnode]
      simp [Raw.encoded]
    · rename_i hne
      show m.id ∉ s'.work.maps
      rw [hwork]
      show m.id ∉ s.work.maps.insert d.node _
      rw [Std.ExtTreeMap.mem_insert]
      rintro (he | hmem)
      · exact hne (Std.LawfulEqCmp.compare_eq_iff_eq.1 he)
      · exact h hmem
  | forked d => rw [hd] at hf; cases hf
  | _ =>
    have hnone : taleStep m.id none ev.data = none := by
      rw [hd]
      simp only [taleStep, Option.map_none, ite_self]
    rw [← hd, hnone]
    show m.id ∉ s'.work.maps
    rw [hwork]
    refine fun hmem => h (mem_maps_step ho (fun d hmap => ?_) hf hmem)
    rw [hd] at hmap
    cases hmap

/-- **Every event keeps the books.** -/
theorem telling_kept (hm : fl.node m.id = some m) : Lasting x fl fun l s => Telling m s (tale m.id l) where
  new _ := Std.ExtTreeMap.not_mem_empty
  alike {l s s'} h ha := by
    cases ht : tale m.id l with
    | none =>
      rw [ht] at h
      show m.id ∉ s'.work.maps
      rw [← ha.work]
      exact h
    | some t =>
      rw [ht] at h
      obtain ⟨outs, r, houts, h⟩ := h
      exact ⟨outs, r, (ha.outputsOf m.id).symm.trans houts, by rw [← ha.work]; exact h⟩
  step {l s s' req ev base} h hp hapt hf happ := by
    rw [tale_snoc]
    cases ht : tale m.id l with
    | none =>
      rw [ht] at h
      exact untold_step hm h hp.offer hapt hf happ
    | some t =>
      rw [ht] at h
      obtain ⟨outs, r, houts, h⟩ := h
      exact h.step houts hp.offer hapt hf happ
  fork {l src req ev d s s'} h _ _ _ hd hstate happ := by
    have hwork := State.apply_forked_open hd hstate happ
    have houts : s'.outputsOf m.id = src.outputsOf m.id := by
      obtain ⟨-, s₁, hs₁, rfl⟩ := State.apply_ok.1 happ
      simp only [State.applyData, hd] at hs₁
      cases hs₁
      show (unmarshal d.state).outputsOf m.id = _
      rw [hstate]
      exact src.outputsOf_encoded m.id
    rw [tale_snoc, hd]
    show Telling m s' (tale m.id l)
    cases ht : tale m.id l with
    | none =>
      rw [ht] at h
      show m.id ∉ s'.work.toOpen.maps
      rw [hwork]
      exact h
    | some t =>
      rw [ht] at h
      obtain ⟨outs, r, hout, h⟩ := h
      exact ⟨outs, r, houts.trans hout, by rw [hwork]; exact h⟩

/-! ## Between two decisions, and when the map completes -/

theorem mem_of_full {α : Type} {l L : List α} (hnd : l.Nodup) (hsub : l ⊆ L) (hlen : L.length ≤ l.length) {a : α} (ha : a ∈ L) :
    a ∈ l := by
  classical
  exact ((hnd.subperm hsub).perm_of_length_le hlen).mem_iff.2 ha

/-- The books of an open map between two decisions: its tasks and children are the items that were started and have
not completed, `next - done` of them and at most `max_parallel`. -/
structure MapAccounts (m : Node) (t : Tale) (s : State) : Prop where
  run : ∃ r, s.maps[m.id]? = some r ∧ r.items = t.items ∧ r.done = t.done.length ∧
    t.started = (List.range r.next).map (itemKey m.id) ∧ ((s.tasks.size + s.children.size : Nat) : Int) = r.next - r.done
  inFlight : ∀ k : String, k ∈ s.tasks ∨ k ∈ s.children ↔ k ∈ t.started ∧ k ∉ t.done.map Prod.fst
  apart : ∀ k : String, k ∈ s.tasks → k ∉ s.children
  task : ∀ (k : String) (tk : Task), s.tasks[k]? = some tk → tk.owner = m.id ∧ k = itemKey m.id tk.index ∧
    tk.item = t.items[tk.index]?
  child : ∀ (k : String) (ch : ChildState), s.children[k]? = some ch → ch.owner = m.id ∧ k = itemKey m.id ch.index
  limit : ((s.tasks.size + s.children.size : Nat) : Int) ≤ if m.maxParallel ≤ 0 then 100 else m.maxParallel

/-- The map leaves one list behind, with the output of every item at its place. -/
structure MapCompletes (m : Node) (t : Tale) (s' : State) : Prop where
  closed : m.id ∉ s'.maps
  once : (t.done.map Prod.fst).Nodup
  result : ∃ outs, s'.results[m.id]? = some (some (.arr outs)) ∧ outs.length = t.items.length ∧
    ∀ i < t.items.length, ∃ out, (itemKey m.id i, out) ∈ t.done ∧ outs[i]? = some out.encoded

theorem Told.accounts (h : Told m s.work.toOpen outs t r) (hcount : r.done + s.tasks.size + s.children.size = r.next) :
    MapAccounts m t s := by
  obtain ⟨run, hrun, rfl⟩ := State.maps_of_work h.maps
  have hcount : run.done + s.tasks.size + s.children.size = run.next := hcount
  have hroom : (run.next : Int) - run.done ≤ run.work.limit := h.room
  have hdone : run.done = t.done.length := h.count
  have hstarted : t.started = (List.range run.next).map (itemKey m.id) := h.started
  refine ⟨⟨run, hrun, h.items, hdone, hstarted, by push_cast; omega⟩, fun k => ⟨?_, ?_⟩, fun k hk hc => ?_,
    fun k tk hget => ?_, fun k ch hget => ?_, ?_⟩
  · rintro (hk | hk)
    · obtain ⟨tk, htk⟩ := get_of_mem hk
      obtain ⟨-, -, g3, g4, -, g6, -⟩ := h.task htk
      exact ⟨h.mem_started.2 ⟨_, g3, g4⟩, g6⟩
    · obtain ⟨ch, hch⟩ := get_of_mem hk
      obtain ⟨-, -, g3, g4, g5⟩ := h.child hch
      exact ⟨h.mem_started.2 ⟨_, g3, g4⟩, g5⟩
  · -- tasks, children and completed items are different started items, and as many
    rintro ⟨hk, hnot⟩
    have hmem : k ∈ s.tasks.keys ++ s.children.keys ++ t.done.map Prod.fst := by
      refine mem_of_full ?_ (fun a ha => ?_) ?_ hk
      · rw [List.nodup_append, List.nodup_append]
        refine ⟨⟨Std.ExtTreeMap.nodup_keys, Std.ExtTreeMap.nodup_keys, fun a ha b hb he => ?_⟩, h.distinct, fun a ha b hb he => ?_⟩
        · obtain ⟨tk, htk⟩ := get_of_mem (Std.ExtTreeMap.mem_keys.1 ha)
          obtain ⟨ch, hch⟩ := get_of_mem (Std.ExtTreeMap.mem_keys.1 hb)
          rw [← he] at hch
          have hno : s.children[a]? = none := (h.task htk).2.2.2.2.2.2
          rw [hno] at hch
          cases hch
        · subst he
          rcases List.mem_append.1 ha with ha | ha
          · obtain ⟨tk, htk⟩ := get_of_mem (Std.ExtTreeMap.mem_keys.1 ha)
            exact (h.task htk).2.2.2.2.2.1 hb
          · obtain ⟨ch, hch⟩ := get_of_mem (Std.ExtTreeMap.mem_keys.1 ha)
            exact (h.child hch).2.2.2.2 hb
      · rcases List.mem_append.1 ha with ha | ha
        · rcases List.mem_append.1 ha with ha | ha
          · obtain ⟨tk, htk⟩ := get_of_mem (Std.ExtTreeMap.mem_keys.1 ha)
            obtain ⟨-, -, g3, g4, -⟩ := h.task htk
            exact h.mem_started.2 ⟨_, g3, g4⟩
          · obtain ⟨ch, hch⟩ := get_of_mem (Std.ExtTreeMap.mem_keys.1 ha)
            obtain ⟨-, -, g3, g4, -⟩ := h.child hch
            exact h.mem_started.2 ⟨_, g3, g4⟩
        · obtain ⟨e, he, rfl⟩ := List.mem_map.1 ha
          obtain ⟨i, hi, hkey, -⟩ := h.done e he
          exact h.mem_started.2 ⟨i, hi, hkey⟩
      · simp only [hstarted, List.length_map, List.length_range, List.length_append, Std.ExtTreeMap.length_keys]
        omega
    rcases List.mem_append.1 hmem with hmem | hmem
    · rcases List.mem_append.1 hmem with hmem | hmem
      · exact .inl (Std.ExtTreeMap.mem_keys.1 hmem)
      · exact .inr (Std.ExtTreeMap.mem_keys.1 hmem)
    · exact absurd hmem hnot
  · obtain ⟨tk, htk⟩ := get_of_mem hk
    obtain ⟨ch, hch⟩ := get_of_mem hc
    have hno : s.children[k]? = none := (h.task htk).2.2.2.2.2.2
    rw [hno] at hch
    cases hch
  · obtain ⟨g1, -, -, g4, g5, -⟩ := h.task hget
    exact ⟨g1, g4, by rw [← h.items]; exact g5⟩
  · obtain ⟨g1, -, -, g4, -⟩ := h.child hget
    exact ⟨g1, g4⟩
  · have hlim : run.work.limit = if m.maxParallel ≤ 0 then 100 else m.maxParallel := by
      unfold MapWork.limit defaultMapParallel
      rw [h.parallel]
    rw [← hlim]
    push_cast
    omega

theorem Told.completes (h : Told m s.work.toOpen outs t r) (houts : s.outputsOf m.id = some outs)
    {d : Event.MapDone} (hd : ev.data = .mapDone d) (hnode : d.node = m.id) (ha : (Payload.mapDone d).Apt cause fl s)
    (happ : s.apply x.quote fl ev = .ok s') : MapCompletes m t s' := by
  obtain ⟨-, r', hr', hall⟩ := ha
  rw [h.maps] at hr'
  obtain ⟨-, rfl⟩ := get_of_single hr'
  obtain ⟨-, s₁, hs₁, rfl⟩ := State.apply_ok.1 happ
  simp only [State.applyData, hd, State.applyMapDone, hnode] at hs₁
  have hrun : ∃ run, s.maps[m.id]? = some run ∧ run.outputs.map Raw.encoded = outs := by
    unfold State.outputsOf at houts
    exact Option.map_eq_some_iff.1 houts
  obtain ⟨run, hrun, hencoded⟩ := hrun
  rw [hrun] at hs₁
  cases hs₁
  refine ⟨?_, h.distinct, outs, ?_, by rw [← h.items]; exact h.length, fun i hi => ?_⟩
  · show m.id ∉ s.maps.erase m.id
    rw [Std.ExtTreeMap.mem_erase]
    exact fun hmem => hmem.1 (Std.LawfulEqCmp.compare_eq_iff_eq.2 rfl)
  · show (s.results.insert m.id _)[m.id]? = _
    rw [get_insert, if_pos rfl, hencoded]
  · -- as many items have completed as there are, so this one has
    have hmem : itemKey m.id i ∈ t.done.map Prod.fst := by
      refine @mem_of_full _ _ ((List.range t.items.length).map (itemKey m.id)) h.distinct (fun a ha => ?_) ?_ _
        (List.mem_map_of_mem (List.mem_range.2 hi))
      · obtain ⟨e, he, rfl⟩ := List.mem_map.1 ha
        obtain ⟨j, hj, hkey, -⟩ := h.done e he
        rw [hkey]
        refine List.mem_map_of_mem (List.mem_range.2 ?_)
        rw [← h.items]
        exact lt_of_lt_of_le hj h.next_le
      · simp only [List.length_map, List.length_range]
        rw [← h.count, hall, h.items]
    obtain ⟨e, he, hkey⟩ := List.mem_map.1 hmem
    obtain ⟨j, -, hj, hout⟩ := h.done e he
    obtain rfl : i = j := itemKey_inj (hkey.symm.trans hj)
    exact ⟨e.2, hkey ▸ he, hout⟩

/-- The count of an open map between two decisions. -/
theorem Progress.map_count (h : Progress fl s.work) (hm : s.work.maps = single m.id r) :
    r.done + s.tasks.size + s.children.size = r.next := by
  have hget : s.work.maps[m.id]? = some r := by rw [hm, get_single_self]
  have empty : s.work.maps = ∅ → False := by
    intro he
    rw [he, get_empty] at hget
    cases hget
  cases h with
  | task h => exact (empty h.rest.maps).elim
  | await h => exact (empty h.rest.maps).elim
  | child h => exact (empty h.rest.maps).elim
  | fan h => exact (empty h.rest.maps).elim
  | map h =>
    rw [h.maps] at hget
    obtain ⟨-, rfl⟩ := get_of_single hget
    exact h.count

/-- **Map bookkeeping is exact.** Between two decisions an open map has in flight what was started and has not completed,
`next - done` items and at most `max_parallel`; when it completes it leaves one list, the `i`-th entry the output of
item `i`. -/
theorem map_accounts (hv : validate x fl = []) (hm : fl.node m.id = some m) :
    (∀ s line, Lineage x fl s line → (m.id ∈ s.maps ↔ (tale m.id (moves line)).isSome = true) ∧
      ∀ t, tale m.id (moves line) = some t → MapAccounts m t s) ∧
    ∀ before s req evs s' e₁ ev e₂ d, Turn x fl before s req evs s' → evs = e₁ ++ ev :: e₂ → ev.data = .mapDone d →
      d.node = m.id → ∃ t s₁ s₂, tale m.id (moves before ++ e₁.map fun ev => (req, ev)) = some t ∧
        replay (State.apply x.quote fl) s e₁ = .ok s₁ ∧ s₁.apply x.quote fl ev = .ok s₂ ∧ MapCompletes m t s₂ := by
  have ck := checked_of_validate hv
  have kept := @telling_kept m x fl hm
  have mem_maps : ∀ s : State, m.id ∈ s.maps ↔ m.id ∈ s.work.maps := by
    intro s
    rw [Std.ExtTreeMap.mem_iff_isSome_getElem?, Std.ExtTreeMap.mem_iff_isSome_getElem?, s.work_maps_get, Option.isSome_map]
  refine ⟨fun s line hl => ?_, fun before s req evs s' e₁ ev e₂ d hturn he hd hnode => ?_⟩
  · have hI := kept.lineage ck hl
    obtain ⟨log, hr⟩ := hl.reachable
    cases ht : tale m.id (moves line) with
    | none =>
      rw [ht] at hI
      have hI : m.id ∉ s.work.maps := hI
      simp [mem_maps, hI]
    | some t =>
      rw [ht] at hI
      obtain ⟨outs, r, -, htold⟩ := hI
      have hmem : m.id ∈ s.work.maps := by rw [htold.maps]; exact mem_of_get get_single_self
      refine ⟨by simp [mem_maps, hmem], fun t' ht' => ?_⟩
      cases ht'
      rcases (hr.tracked ck.toWellFormed).idle_or_rested with hi | ⟨-, hrest⟩
      · exact (htold.not_idle hi).elim
      · exact htold.accounts (hrest.progress.map_count htold.maps)
  · obtain ⟨base, s₁, s₂, hrep, hI, hsaid, happ, -, -⟩ := kept.turn ck hturn he (by rw [hd]; rfl)
    have hapt := hsaid.apt
    rw [hd] at hapt
    cases ht : tale m.id (moves before ++ e₁.map fun ev => (req, ev)) with
    | none =>
      rw [ht] at hI
      obtain ⟨-, r, hr, -⟩ := hapt
      rw [hnode] at hr
      exact absurd (mem_of_get hr) hI
    | some t =>
      rw [ht] at hI
      obtain ⟨outs, r, houts, htold⟩ := hI
      exact ⟨t, s₁, s₂, rfl, hrep, happ, htold.completes houts hd hnode hapt happ⟩

end

end

/-! Two items, the second completes first. -/

def pairExt : Ext := { plainExt with eval := fun _ _ => .ok { asList := some [.ok (.num 7), .ok (.num 8)] } }

def eachPage : Node := { id := "each", type := .map, kind := "write", overExpr := "pages", next := "publish" }

def pageReview : Flow := { oneTask with nodes := [eachPage, { id := "publish", type := .task, kind := "write" }] }

theorem pageReview_valid : validate pairExt pageReview = [] := by decide +kernel

def pageDone (key : String) (gen : Nat) (text : String) : Command :=
  ⟨"done-" ++ key, .complete { key, generation := gen, attempt := 1, output := some (.obj [("text", .str text)]) }⟩

def pageRun : State × List Entry :=
  (attend pairExt pageReview (State.new "r1") [] [(startReview, 1), (pageDone "each#1" 2 "second", 2)]).get
    (by decide +kernel)

theorem pageRun_completes : ∃ t s', MapCompletes eachPage t s' ∧
    t.done.map Prod.fst = ["each#1", "each#0"] := by
  have hl : Lineage pairExt pageReview pageRun.1 pageRun.2 := (Lineage.new "r1").attend (Option.some_get _).symm
  have hrun : (decide pairExt pageReview pageRun.1 (pageDone "each#0" 1 "first") 3).result.isOk = true ∧
      (let evs := (decide pairExt pageReview pageRun.1 (pageDone "each#0" 1 "first") 3).events
       ((evs[1]?).bind fun ev => match ev.data with | .mapDone d => some d.node | _ => none) = some "each" ∧
       (tale "each" (moves pageRun.2 ++ (evs.take 1).map fun ev => (.ask (.command (pageDone "each#0" 1 "first")), ev))).map
         (fun t => t.done.map Prod.fst) = some ["each#1", "each#0"]) := by decide +kernel
  obtain ⟨hok, hmap, htale⟩ := hrun
  obtain ⟨ev, hev, hdata⟩ := Option.bind_eq_some_iff.1 hmap
  cases hd : ev.data with
  | mapDone d =>
    rw [hd] at hdata
    obtain ⟨t, s₁, s₂, ht, -, -, hcomp⟩ := (@map_accounts eachPage pairExt pageReview pageReview_valid rfl).2 _ _ _ _ _ _ ev _ d
      (Turn.own (.ask (.command (pageDone "each#0" 1 "first"))) 3 hl rfl (Outcome.result_events hok))
      (eq_take_cons_drop hev) hd (Option.some.inj hdata)
    have htold : (some t).map (fun t : Tale => t.done.map Prod.fst) = some ["each#1", "each#0"] := ht ▸ htale
    exact ⟨t, s₂, hcomp, Option.some.inj htold⟩
  | _ => rw [hd] at hdata; cases hdata

end Packtrail
