import Packtrail.Lib.Ballot
import Packtrail.Lineage
import Packtrail.Decisions

/-
# The verdict of a join

A fan-out runs its branches side by side and its join waits for some of them. `poll fan l` reads from a
history which branches have settled since the fan-out opened, in their order, and `Fixed` says that
these settle the verdict whatever the others do. **`join_concludes`**: the join settles at the first
settlement that fixes its verdict, with that verdict.
-/

namespace Packtrail

open Replay Ballot

/-! ## The verdict of a tally -/

/-- How many of the awaited branches have to succeed. -/
def JoinKind.needed (kind : JoinKind) (awaited : Nat) : Int :=
  match kind with
  | .any => 1
  | .quorum q | .min q => q
  | _ => awaited

/-- The settlements `v` fix the verdict `ok`: however the other branches end, the awaited ones that succeed reach
the number needed, or they miss it. A `min` join waits for all of them. -/
structure Fixed (kind : JoinKind) (waits : List String) (v : List (String × Bool)) (ok : Bool) : Prop where
  verdict : ∀ a, Allows v a → (kind.needed waits.length ≤ waits.countP a ↔ ok = true)
  all : ∀ q, kind = .min q → ∀ b ∈ waits, b ∈ v.map Prod.fst

/-- What a fan-out records for branch `b`. -/
def outcomeOf (v : List (String × Bool)) (b : String) : BranchStatus :=
  match v.lookup b with
  | none => .pending
  | some true => .completed
  | some false => .failed

theorem lookup_none {v : List (String × Bool)} {b : String} : v.lookup b = none ↔ b ∉ v.map Prod.fst := by
  induction v with
  | nil => simp
  | cons p v ih =>
    obtain ⟨k, ok⟩ := p
    by_cases hk : b = k
    · simp [hk]
    · have : (b == k) = false := by simp [hk]
      simp [List.lookup_cons, this, hk, ih]

theorem outcomeOf_completed (v : List (String × Bool)) (b : String) :
    Decidable.decide (outcomeOf v b = .completed) = yes v b := by
  unfold outcomeOf yes
  cases v.lookup b with
  | none => rfl
  | some ok => cases ok <;> rfl

theorem outcomeOf_pending (v : List (String × Bool)) (b : String) :
    Decidable.decide (outcomeOf v b = .pending) = out v b := by
  unfold outcomeOf out
  cases v.lookup b with
  | none => rfl
  | some ok => cases ok <;> rfl

theorem countP_out_zero {v : List (String × Bool)} {waits : List String} :
    waits.countP (out v) = 0 ↔ ∀ b ∈ waits, b ∈ v.map Prod.fst := by
  rw [List.countP_eq_zero]
  refine forall₂_congr fun b _ => ?_
  rw [← not_iff_not, not_not, ← lookup_none]
  simp [out]

/-- **The join of the source settles exactly when its verdict is fixed.** -/
theorem tally_fixed {kind : JoinKind} {waits : List String} {f : Fan} {v : List (String × Bool)} {ok : Bool}
    (hf : ∀ b ∈ waits, branchOutcome f b = outcomeOf v b) :
    (tally kind waits f).verdict = some ok ↔ Fixed kind waits v ok := by
  have hyes : (waits.filter fun b => branchOutcome f b = .completed).length = waits.countP (yes v) := by
    rw [List.countP_eq_length_filter]
    refine congrArg List.length (List.filter_congr fun b hb => ?_)
    rw [hf b hb, outcomeOf_completed]
  have hout : (waits.filter fun b => branchOutcome f b = .pending).length = waits.countP (out v) := by
    rw [List.countP_eq_length_filter]
    refine congrArg List.length (List.filter_congr fun b hb => ?_)
    rw [hf b hb, outcomeOf_pending]
  -- the verdict by counting, for a policy that does not wait for every branch
  have count : ∀ need : Int, (if need ≤ waits.countP (yes v) then some true
      else if need ≤ waits.countP (yes v) + waits.countP (out v) then none else some false) = some ok ↔
      ∀ a, Allows v a → (need ≤ waits.countP a ↔ ok = true) := by
    intro need
    have hr := @forall_reach _ _ v waits need
    have hm := @forall_miss _ _ v waits need
    cases ok with
    | true =>
      simp only [iff_true, hr]
      split
      · simp_all
      · split <;> simp_all
    | false =>
      simp only [Bool.false_eq_true, iff_false, hm]
      split
      · simp
        omega
      · split <;> simp_all
  have join : ∀ need : Int, kind.needed waits.length = need → (∀ q, kind ≠ .min q) →
      ((if need ≤ waits.countP (yes v) then some true
        else if need ≤ waits.countP (yes v) + waits.countP (out v) then none else some false) = some ok ↔
        Fixed kind waits v ok) := by
    intro need hneed hmin
    rw [count need]
    constructor
    · intro h
      exact ⟨by rw [hneed]; exact h, fun q hq => absurd hq (hmin q)⟩
    · intro h
      rw [← hneed]
      exact h.verdict
  unfold tally
  simp only [hyes, hout]
  cases kind with
  | any => exact join 1 rfl (by simp)
  | all => exact join waits.length rfl (by simp)
  | quorum q => exact join q rfl (by simp)
  | unknown u => exact join waits.length rfl (by simp)
  | min q =>
    by_cases hz : waits.countP (out v) = 0
    · have hc := count q
      rw [hz, Int.natCast_zero, add_zero] at hc
      simp only [hz, Nat.lt_irrefl, if_false]
      have hsame : (if q ≤ waits.countP (yes v) then some true else if q ≤ waits.countP (yes v) then none else some false) =
          some (Decidable.decide (q ≤ waits.countP (yes v))) := by
        by_cases hq : q ≤ waits.countP (yes v)
        · rw [if_pos hq, decide_eq_true hq]
        · rw [if_neg hq, if_neg hq, decide_eq_false hq]
      rw [hsame] at hc
      constructor
      · intro h
        exact ⟨hc.1 h, fun _ _ => countP_out_zero.1 hz⟩
      · intro h
        exact hc.2 h.verdict
    · rw [if_pos (Nat.pos_of_ne_zero hz)]
      constructor
      · intro h
        cases h
      · intro h
        exact absurd (countP_out_zero.2 (h.all q rfl)) hz

/-! ## A fan-out while its branches settle -/

/-- The instance an event settles and whether it succeeded. -/
def Payload.settlement : Payload → Option (String × Bool)
  | .nodeDone d => some (d.key, true)
  | .nodeFail d => if d.willRetry then none else some (d.key, false)
  | .childDone d => some (d.instanceKey, d.status == "completed")
  | _ => none

/-- What has settled since the fan-out opened, once `p` is read; `none` while it is closed. -/
def pollStep (fan : String) (v : Option (List (String × Bool))) : Payload → Option (List (String × Bool))
  | .fanout d => if d.node = fan then some [] else v
  | .join d => if d.fanout = fan then none else v
  | .completed _ | .failed _ | .cancelled _ => none
  | p => v.map (· ++ p.settlement.toList)

def poll (fan : String) (l : List (Request × Event)) : Option (List (String × Bool)) :=
  l.foldl (fun v m => pollStep fan v m.2.data) none

theorem poll_snoc (fan : String) (l : List (Request × Event)) (req : Request) (ev : Event) :
    poll fan (l ++ [(req, ev)]) = pollStep fan (poll fan l) ev.data := by
  simp [poll]

section
variable {fl : Flow} {fan join : Node} {o o' : Open} {w : Work} {f : Fan} {v v' : List (String × Bool)} {k : String}

theorem get_uncancelled {b : String} :
    f.uncancelled.branches[b]? = (f.branches[b]?).map fun o => if o = .cancelled then .pending else o := by
  unfold Fan.uncancelled
  exact Std.ExtTreeMap.getElem?_map

/-- The fan-out is open and `v` are its branches that have settled: none before the last fixed the verdict. -/
structure Voting (fl : Flow) (fan join : Node) (o : Open) (v : List (String × Bool)) (f : Fan) : Prop where
  fans : o.fans = single fan.id f
  maps : o.maps = ∅
  joined : f.join = join.id
  branch : ∀ b : String, f.uncancelled.branches[b]? = if b ∈ fan.branches then some (outcomeOf v b) else none
  task : ∀ {k : String} {t}, o.tasks[k]? = some t → t.owner = fan.id ∧ t.node = k ∧ f.branches[k]? = some .pending ∧
    o.children[k]? = none
  child : ∀ {k : String} {ch}, o.children[k]? = some ch → ch.owner = fan.id ∧ ch.node = k ∧ f.branches[k]? = some .pending
  distinct : (v.map Prod.fst).Nodup
  branches : ∀ b ∈ v.map Prod.fst, b ∈ fan.branches
  first : ∀ w, w <+: v → w ≠ v → ∀ ok, ¬ Fixed join.joinKind (fl.waitFor join.id) w ok

/-- The fan-out is closed, or its open record is the one the settlements `v` tell. -/
def Polling (fl : Flow) (fan join : Node) (o : Open) : Option (List (String × Bool)) → Prop
  | none => fan.id ∉ o.fans
  | some v => ∃ f, Voting fl fan join o v f

theorem Voting.pending (h : Voting fl fan join o v f) (hk : f.branches[k]? = some .pending) :
    k ∈ fan.branches ∧ v.lookup k = none := by
  have hb := h.branch k
  rw [get_uncancelled, hk] at hb
  split at hb
  · rename_i hmem
    refine ⟨hmem, ?_⟩
    have : outcomeOf v k = .pending := (Option.some.inj hb).symm
    unfold outcomeOf at this
    cases hl : v.lookup k with
    | none => rfl
    | some ok => cases ok <;> simp [hl] at this
  · cases hb

/-- A fan-out without a verdict leaves its verdict open. -/
theorem Voting.unfixed (h : Voting fl fan join o v f) (hj : fl.node join.id = some join)
    (hsub : ∀ b ∈ fl.waitFor join.id, b ∈ fan.branches) (hu : f.Undecided fl) (ok : Bool) :
    ¬ Fixed join.joinKind (fl.waitFor join.id) v ok := by
  have hv := hu.verdict join (by rw [h.joined]; exact hj)
  rw [← tally_fixed (f := f), hv]
  · simp
  · intro b hb
    have hbr := h.branch b
    rw [get_uncancelled, if_pos (hsub b hb)] at hbr
    unfold branchOutcome
    rw [Std.ExtTreeMap.getD_eq_getD_getElem?]
    cases hget : f.branches[b]? with
    | none => rw [hget] at hbr; cases hbr
    | some out =>
      have hne : out ≠ .cancelled := fun he => hu.uncancelled b (he ▸ hget)
      rw [hget] at hbr
      simpa [hne] using hbr

/-- Branch `k` leaves with outcome `out`. -/
theorem Voting.settle (h : Voting fl fan join o v f) {out : BranchStatus}
    (hfans : o'.fans = single fan.id { f with branches := f.branches.insert k out }) (hmaps : o'.maps = ∅)
    (htask : ∀ {k' : String} {t}, o'.tasks[k']? = some t → k' ≠ k ∧ o.tasks[k']? = some t)
    (hchild : ∀ {k' : String} {ch}, o'.children[k']? = some ch → k' ≠ k ∧ o.children[k']? = some ch)
    (hk : k ∈ fan.branches) (hout : (if out = .cancelled then .pending else out) = outcomeOf v' k)
    (hother : ∀ b, b ≠ k → outcomeOf v' b = outcomeOf v b) (hdistinct : (v'.map Prod.fst).Nodup)
    (hbranches : ∀ b ∈ v'.map Prod.fst, b ∈ fan.branches)
    (hfirst : ∀ w, w <+: v' → w ≠ v' → ∀ ok, ¬ Fixed join.joinKind (fl.waitFor join.id) w ok) :
    Voting fl fan join o' v' { f with branches := f.branches.insert k out } where
  fans := hfans
  maps := hmaps
  joined := h.joined
  branch b := by
    rw [get_uncancelled]
    show ((f.branches.insert k out)[b]?).map _ = _
    rw [get_insert]
    by_cases hb : k = b
    · subst hb
      rw [if_pos rfl, if_pos hk]
      exact congrArg some hout
    · rw [if_neg hb, ← get_uncancelled, h.branch b, hother b (Ne.symm hb)]
  task hget := by
    obtain ⟨hne, hget⟩ := htask hget
    obtain ⟨h1, h2, h3, h4⟩ := h.task hget
    refine ⟨h1, h2, ?_, ?_⟩
    · show (f.branches.insert k out)[_]? = _
      rw [get_insert, if_neg (Ne.symm hne)]
      exact h3
    · by_contra hsome
      obtain ⟨ch, hch⟩ := Option.ne_none_iff_exists'.1 hsome
      rw [(hchild hch).2] at h4
      cases h4
  child hget := by
    obtain ⟨hne, hget⟩ := hchild hget
    obtain ⟨h1, h2, h3⟩ := h.child hget
    refine ⟨h1, h2, ?_⟩
    show (f.branches.insert k out)[_]? = _
    rw [get_insert, if_neg (Ne.symm hne)]
    exact h3
  distinct := hdistinct
  branches := hbranches
  first := hfirst

theorem outcomeOf_snoc {ok : Bool} (hk : v.lookup k = none) (b : String) :
    outcomeOf (v ++ [(k, ok)]) b = if b = k then (if ok then .completed else .failed) else outcomeOf v b := by
  unfold outcomeOf
  rw [List.lookup_append]
  by_cases hb : b = k
  · rw [if_pos hb, hb, hk]
    cases ok <;> simp
  · have : (b == k) = false := by simp [hb]
    rw [if_neg hb]
    simp [List.lookup_cons, this]

/-- A branch settles. -/
theorem Voting.vote (h : Voting fl fan join o v f) {ok : Bool} (hk : f.branches[k]? = some .pending)
    (hfans : o'.fans = single fan.id { f with branches := f.branches.insert k (if ok then .completed else .failed) })
    (hmaps : o'.maps = ∅)
    (htask : ∀ {k' : String} {t}, o'.tasks[k']? = some t → k' ≠ k ∧ o.tasks[k']? = some t)
    (hchild : ∀ {k' : String} {ch}, o'.children[k']? = some ch → k' ≠ k ∧ o.children[k']? = some ch)
    (hun : ∀ ok, ¬ Fixed join.joinKind (fl.waitFor join.id) v ok) :
    Voting fl fan join o' (v ++ [(k, ok)])
      { f with branches := f.branches.insert k (if ok then .completed else .failed) } := by
  obtain ⟨hmem, hnone⟩ := h.pending hk
  refine h.settle hfans hmaps htask hchild hmem ?_ (fun b hb => ?_) ?_ (fun b hb => ?_) fun w hw hne ok' => ?_
  · rw [outcomeOf_snoc hnone, if_pos rfl]
    cases ok <;> rfl
  · rw [outcomeOf_snoc hnone, if_neg hb]
  · rw [List.map_append, List.nodup_append]
    exact ⟨h.distinct, List.nodup_singleton _, by
      intro a ha b hb he
      rw [List.map_singleton, List.mem_singleton] at hb
      have hb : b = k := hb
      exact lookup_none.1 hnone (hb ▸ he ▸ ha)⟩
  · rw [List.map_append, List.mem_append] at hb
    rcases hb with hb | hb
    · exact h.branches b hb
    · rw [List.map_singleton, List.mem_singleton] at hb
      exact hb ▸ hmem
  · rcases List.prefix_concat_iff.1 hw with he | hw
    · exact absurd he hne
    · by_cases hv : w = v
      · exact hv ▸ hun ok'
      · exact h.first w hw hv ok'

/-- A branch is cancelled. -/
theorem Voting.drop (h : Voting fl fan join o v f) (hk : f.branches[k]? = some .pending)
    (hfans : o'.fans = single fan.id { f with branches := f.branches.insert k .cancelled }) (hmaps : o'.maps = ∅)
    (htask : ∀ {k' : String} {t}, o'.tasks[k']? = some t → k' ≠ k ∧ o.tasks[k']? = some t)
    (hchild : ∀ {k' : String} {ch}, o'.children[k']? = some ch → k' ≠ k ∧ o.children[k']? = some ch) :
    Voting fl fan join o' v { f with branches := f.branches.insert k .cancelled } := by
  obtain ⟨hmem, hnone⟩ := h.pending hk
  refine h.settle hfans hmaps htask hchild hmem ?_ (fun _ _ => rfl) h.distinct h.branches h.first
  simp [outcomeOf, hnone]

/-- Nothing of the fan-out changes. -/
theorem Voting.keep (h : Voting fl fan join o v f) (hfans : o'.fans = o.fans) (hmaps : o'.maps = ∅)
    (htask : ∀ {k' : String} {t}, o'.tasks[k']? = some t → t.owner = fan.id ∧ t.node = k' ∧
      f.branches[k']? = some .pending ∧ o'.children[k']? = none)
    (hchild : ∀ {k' : String} {ch}, o'.children[k']? = some ch → ch.owner = fan.id ∧ ch.node = k' ∧
      f.branches[k']? = some .pending) : Voting fl fan join o' v f where
  fans := hfans.trans h.fans
  maps := hmaps
  joined := h.joined
  branch := h.branch
  task := htask
  child := hchild
  distinct := h.distinct
  branches := h.branches
  first := h.first

theorem settleFans_single (h : w.fans = single fan.id f) (node : String) (out : BranchStatus) :
    w.settleFans fan.id node out = single fan.id { f with branches := f.branches.insert node out } := by
  unfold Work.settleFans
  rw [h, get_single_self]
  exact single_insert

theorem countDone_none (h : w.maps = ∅) (owner node : String) : w.countDone owner node = w.maps := by
  unfold Work.countDone
  rw [h, get_empty]

theorem raiseNext_none (h : w.maps = ∅) (owner node : String) (index : Nat) : w.raiseNext owner node index = ∅ := by
  unfold Work.raiseNext
  rw [h, get_empty]

theorem Voting.not_idle (h : Voting fl fan join o v f) (hi : o.Idle) : False := by
  have := h.fans.symm.trans hi.fans
  have hget : (single fan.id f)[fan.id]? = (∅ : SMap Fan)[fan.id]? := by rw [this]
  rw [get_single_self, get_empty] at hget
  cases hget

section
variable {s : State} {cause : Cause} {base : Nat}

/-- An instance that starts while the fan-out is open is a pending branch of it. -/
theorem Voting.place (h : Voting fl fan join s.work.toOpen v f) {key node owner : String} {index : Nat} {item : Raw}
    (hp : Place s key node owner index item) : owner = fan.id ∧ node = key ∧ f.branches[key]? = some .pending := by
  cases hp with
  | alone idle => exact (h.not_idle idle).elim
  | branch hfan hpending _ hkey =>
    have hget : s.work.fans[owner]? = some _ := hfan
    rw [h.fans] at hget
    obtain ⟨rfl, rfl⟩ := get_of_single hget
    exact ⟨rfl, hkey.symm, hkey ▸ hpending⟩
  | item _ hfans =>
    have hget : (single fan.id f)[fan.id]? = (∅ : SMap Fan)[fan.id]? := by rw [← h.fans, hfans]
    rw [get_single_self, get_empty] at hget
    cases hget

/-- Task `k` is settled and gone. -/
theorem Voting.settled (h : Voting fl fan join w.toOpen v f) {t : Task} (ht : w.tasks[k]? = some t) (out : BranchStatus) :
    f.branches[k]? = some .pending ∧ (w.settle k out).fans = single fan.id { f with branches := f.branches.insert k out } ∧
      (w.settle k out).maps = ∅ ∧
      (∀ {k' : String} {t}, (w.settle k out).tasks[k']? = some t → k' ≠ k ∧ w.tasks[k']? = some t) ∧
      ∀ {k' : String} {ch}, (w.settle k out).children[k']? = some ch → k' ≠ k ∧ w.children[k']? = some ch := by
  obtain ⟨h1, h2, h3, h4⟩ := h.task ht
  rw [Work.settle_eq ht]
  refine ⟨h3, ?_, h.maps, fun hget => ?_, fun {k' ch} hget => ⟨?_, hget⟩⟩
  · show w.settleFans t.owner t.node out = _
    rw [h1, h2]
    exact settleFans_single h.fans k out
  · obtain ⟨hne, hget⟩ := get_of_erase hget
    exact ⟨Ne.symm hne, hget⟩
  · rintro rfl
    have hget : w.children[k']? = some ch := hget
    rw [h4] at hget
    cases hget

/-- The task at `k` changes but stays the same branch. -/
theorem Voting.putTask (h : Voting fl fan join o v f) {t : Task} (hfans : o'.fans = o.fans) (hmaps : o'.maps = ∅)
    (htasks : o'.tasks = o.tasks.insert k t) (hchildren : o'.children = o.children)
    (ht : t.owner = fan.id ∧ t.node = k ∧ f.branches[k]? = some .pending ∧ o.children[k]? = none) :
    Voting fl fan join o' v f := by
  refine h.keep hfans hmaps (fun hget => ?_) fun hget => ?_
  · rw [htasks] at hget
    rw [hchildren]
    rcases get_of_insert hget with ⟨rfl, rfl⟩ | ⟨-, hget⟩
    · exact ht
    · exact h.task hget
  · rw [hchildren] at hget
    exact h.child hget

theorem Voting.setStatus (h : Voting fl fan join w.toOpen v f) {g : Task → Task} (hg : ∀ t, (g t).owner = t.owner ∧ (g t).node = t.node) :
    Voting fl fan join (w.setStatus k g).toOpen v f := by
  unfold Work.setStatus
  cases ht : w.tasks[k]? with
  | none => exact h
  | some t =>
    obtain ⟨h1, h2⟩ := hg t
    exact h.putTask rfl h.maps rfl rfl (by rw [h1, h2]; exact h.task ht)

theorem Voting.finishChild (h : Voting fl fan join w.toOpen v f) {d : Event.ChildDone} {ch : ChildState}
    (hch : w.children[d.instanceKey]? = some ch) (hnode : ch.node = d.node) :
    w.finishChild d =
      { w with
        children := w.children.erase d.instanceKey
        fans := single fan.id
          { f with branches := f.branches.insert d.instanceKey (if d.status == "completed" then .completed else .failed) } } := by
  obtain ⟨h1, h2, -⟩ := h.child hch
  have hno : (if ch.owner = d.node then w.maps[ch.owner]? else none) = none := by
    rw [h.maps, get_empty]
    split <;> rfl
  unfold Work.finishChild
  simp only [hch, Work.settleChild, hno]
  rw [h1, ← hnode, h2]
  exact congrArg (fun fans => { w with children := w.children.erase d.instanceKey, fans := fans })
    (@settleFans_single fan { w with children := w.children.erase d.instanceKey } f h.fans _ _)

/-- The step of the machine, while the fan-out is open. -/
theorem Voting.step (h : Voting fl fan join s.work.toOpen v f) (hj : fl.node join.id = some join)
    (hsub : ∀ b ∈ fl.waitFor join.id, b ∈ fan.branches) {p : Payload} (ho : Offer fl base s p) (ha : p.Apt cause fl s)
    (hf : p.isForked = false) : Polling fl fan join (s.work.step p).toOpen (pollStep fan.id (some v) p) := by
  -- an event that settles nothing
  have quiet : p.settlement = none → pollStep fan.id (some v) p = some (v ++ p.settlement.toList) →
      (∃ f', Voting fl fan join (s.work.step p).toOpen v f') →
      Polling fl fan join (s.work.step p).toOpen (pollStep fan.id (some v) p) := by
    intro hset hpoll hf'
    rw [hpoll, hset, Option.toList_none, List.append_nil]
    exact hf'
  have unfixed : s.work.Undecided fl → ∀ ok, ¬ Fixed join.joinKind (fl.waitFor join.id) v ok := by
    intro hu
    refine h.unfixed hj hsub (hu fan.id f ?_)
    rw [h.fans, get_single_self]
  have nofan : (s.work.fans.erase fan.id) = ∅ := by rw [h.fans, single_erase]
  cases p with
  | forked d => cases hf
  | continued d => exact quiet rfl rfl ⟨f, by rw [ho.continued_work]; exact h⟩
  | completed d => exact Std.ExtTreeMap.not_mem_empty
  | failed d => exact Std.ExtTreeMap.not_mem_empty
  | cancelled d => exact Std.ExtTreeMap.not_mem_empty
  | scheduled d =>
    refine quiet rfl rfl ⟨f, h.putTask rfl (raiseNext_none h.maps _ _ _) rfl rfl ?_⟩
    rcases ha with ⟨hfree, hplace, -⟩ | ⟨t, ht, hof, -⟩
    · obtain ⟨h1, h2, h3⟩ := h.place hplace
      exact ⟨h1, h2, h3, hfree.child⟩
    · obtain ⟨h1, h2, h3, h4⟩ := h.task ht
      exact ⟨hof.owner.trans h1, hof.node.trans h2, h3, h4⟩
  | nodeDone d =>
    obtain ⟨t, ht, -⟩ := ho
    have hfin : s.work.finishTask d.key = s.work.settle d.key .completed := by
      unfold Work.finishTask
      rw [ht]
      simp only [countDone_none h.maps]
    obtain ⟨h3, hfans, hmaps, htasks, hch⟩ := h.settled ht .completed
    rw [← hfin] at hfans hmaps htasks hch
    exact ⟨_, @Voting.vote _ _ _ _ _ _ _ _ h true h3 hfans hmaps htasks hch (unfixed ha)⟩
  | nodeFail d =>
    obtain ⟨⟨t, ht, -⟩, -⟩ := ho
    simp only [Work.step, pollStep, Payload.settlement]
    split
    · rw [Option.toList_none, Option.map_some, List.append_nil]
      exact ⟨f, h.setStatus fun _ => ⟨rfl, rfl⟩⟩
    · obtain ⟨h3, hfans, hmaps, htasks, hch⟩ := h.settled ht .failed
      exact ⟨_, @Voting.vote _ _ _ _ _ _ _ _ h false h3 hfans hmaps htasks hch (unfixed ha)⟩
  | interrupted d => exact quiet rfl rfl ⟨f, h.setStatus fun _ => ⟨rfl, rfl⟩⟩
  | nodeCancel d =>
    obtain ⟨t, ht⟩ := ho
    obtain ⟨h3, hfans, hmaps, htasks, hch⟩ := h.settled ht .cancelled
    exact quiet rfl rfl ⟨_, h.drop h3 hfans hmaps htasks hch⟩
  | fanout d => exact (h.not_idle ha.1).elim
  | join d =>
    obtain ⟨f', -, hget, -⟩ := ha
    have hget : s.work.fans[d.fanout]? = some f' := hget
    rw [h.fans] at hget
    obtain ⟨hfan, -⟩ := get_of_single hget
    simp only [pollStep, hfan, if_true]
    show fan.id ∉ s.work.fans.erase d.fanout
    rw [hfan, nofan]
    exact Std.ExtTreeMap.not_mem_empty
  | map d => exact (h.not_idle ha.1).elim
  | mapDone d =>
    obtain ⟨-, r, hr, -⟩ := ha
    rw [h.maps, get_empty] at hr
    cases hr
  | mapAbort d =>
    refine quiet rfl rfl ⟨f, h.keep rfl ?_ (fun hget => ?_) fun hget => h.child (get_of_filter hget).1⟩
    · show s.work.maps.erase d.node = ∅
      rw [h.maps]
      exact erase_eq_empty fun k hk => absurd hk Std.ExtTreeMap.not_mem_empty
    · obtain ⟨h1, h2, h3, h4⟩ := h.task hget
      refine ⟨h1, h2, h3, ?_⟩
      by_contra hne
      obtain ⟨ch, hch⟩ := Option.ne_none_iff_exists'.1 hne
      rw [(get_of_filter hch).1] at h4
      cases h4
  | child d =>
    refine quiet rfl rfl ⟨f, h.keep rfl (raiseNext_none h.maps _ _ _) (fun hget => ?_) fun hget => ?_⟩
    · obtain ⟨h1, h2, h3, h4⟩ := h.task hget
      refine ⟨h1, h2, h3, ?_⟩
      show (s.work.children.insert d.instanceKey _)[_]? = none
      rw [get_insert, if_neg]
      · exact h4
      · rintro rfl
        rcases ha with ⟨hfree, -⟩ | ⟨-, ch, hch, -⟩
        · exact absurd (hfree.task.symm.trans hget) (by simp)
        · exact absurd (h4.symm.trans hch) (by simp)
    · rcases get_of_insert hget with ⟨rfl, rfl⟩ | ⟨-, hget⟩
      · rcases ha with ⟨-, item, hplace⟩ | ⟨-, ch, hch, hnode, howner, -⟩
        · exact h.place hplace
        · obtain ⟨h1, h2, h3⟩ := h.child hch
          exact ⟨howner.symm.trans h1, hnode.symm.trans h2, h3⟩
      · exact h.child hget
  | childDone d =>
    obtain ⟨hu, ch, hch, hnode⟩ := ha
    obtain ⟨h1, h2, h3⟩ := h.child hch
    have hfin := h.finishChild hch hnode
    simp only [Work.step, hfin]
    refine ⟨_, @Voting.vote _ _ _ _ _ _ _ _ h (d.status == "completed") h3 rfl h.maps (fun {k' t} hget => ⟨?_, hget⟩)
      (fun hget => ?_) (unfixed hu)⟩
    · rintro rfl
      have := (h.task hget).2.2.2
      exact absurd (this.symm.trans hch) (by simp)
    · obtain ⟨hne, hget⟩ := get_of_erase hget
      exact ⟨Ne.symm hne, hget⟩
  | await d => exact quiet rfl rfl ⟨f, h.keep rfl h.maps h.task h.child⟩
  | awaitTimeout d => exact quiet rfl rfl ⟨f, h.keep rfl h.maps h.task h.child⟩
  | signalUse d => exact quiet rfl rfl ⟨f, h.keep rfl h.maps h.task h.child⟩
  | _ => exact quiet rfl rfl ⟨f, h⟩

/-- The fan-out opens with every branch pending. -/
theorem Voting.opened {d : Event.Fanout} (hi : w.Idle) (hnode : d.node = fan.id) (hjoin : d.join = join.id)
    (hbranches : d.branches = fan.branches) : ∃ f, Voting fl fan join (w.openFan d).toOpen [] f := by
  obtain ⟨f, hf⟩ : ∃ f : Fan, f = ⟨d.join, d.branches.foldl (fun m b => m.insert b .pending) ∅⟩ := ⟨_, rfl⟩
  have hall : ∀ b : String, f.branches[b]? = if b ∈ d.branches then some .pending else none := fun b => by
    rw [hf]
    exact get_insertAll.trans (by rw [get_empty])
  refine ⟨f, ?_, hi.maps, by rw [hf]; exact hjoin, fun b => ?_, fun hget => (hi.no_task hget).elim,
    fun hget => (hi.no_child hget).elim, List.nodup_nil, by simp, fun w hw hne => absurd (List.prefix_nil.1 hw) hne⟩
  · show w.fans.insert d.node _ = _
    rw [hi.fans, hnode, hf]
    rfl
  · rw [get_uncancelled, hall b, hbranches]
    split <;> rfl

/-- Only the fan-out's own opening opens it. -/
theorem closed_step (hfan : fl.node fan.id = some fan) (hjoin : fl.joinOf fan.id = some join.id)
    (h : fan.id ∉ s.work.fans) {p : Payload} (ho : Offer fl base s p) (ha : p.Apt cause fl s) (hf : p.isForked = false) :
    Polling fl fan join (s.work.step p).toOpen (pollStep fan.id none p) := by
  cases p with
  | forked d => cases hf
  | continued d =>
    show fan.id ∉ (s.work.step (.continued d)).fans
    rw [ho.continued_work]
    exact h
  | completed d => exact Std.ExtTreeMap.not_mem_empty
  | failed d => exact Std.ExtTreeMap.not_mem_empty
  | cancelled d => exact Std.ExtTreeMap.not_mem_empty
  | nodeDone d =>
    obtain ⟨t, ht, -⟩ := ho
    show fan.id ∉ (s.work.finishTask d.key).fans
    rw [Work.finishTask_fans ht, settleFans_mem]
    exact h
  | nodeFail d =>
    obtain ⟨⟨t, ht, -⟩, -⟩ := ho
    show fan.id ∉ (s.work.step (.nodeFail d)).fans
    simp only [Work.step]
    split
    · unfold Work.setStatus
      split <;> exact h
    · rw [Work.settle_eq ht]
      exact fun hmem => h (settleFans_mem.1 hmem)
  | nodeCancel d =>
    obtain ⟨t, ht⟩ := ho
    show fan.id ∉ (s.work.settle d.key .cancelled).fans
    rw [Work.settle_eq ht]
    exact fun hmem => h (settleFans_mem.1 hmem)
  | interrupted d =>
    show fan.id ∉ (s.work.setStatus d.key _).fans
    unfold Work.setStatus
    split <;> exact h
  | fanout d =>
    obtain ⟨hi, hjo, n, hn, hbr⟩ := ha
    simp only [pollStep]
    split
    · rename_i hnode
      rw [hnode] at hn hjo
      cases hfan.symm.trans hn
      exact Voting.opened hi hnode (Option.some.inj (hjo.symm.trans hjoin)) hbr.symm
    · rename_i hne
      show fan.id ∉ s.work.fans.insert d.node _
      rw [Std.ExtTreeMap.mem_insert]
      rintro (he | hmem)
      · exact hne (Std.LawfulEqCmp.compare_eq_iff_eq.1 he)
      · exact h hmem
  | join d =>
    simp only [pollStep, ite_self]
    show fan.id ∉ s.work.fans.erase d.fanout
    rw [Std.ExtTreeMap.mem_erase]
    exact fun hmem => h hmem.2
  | childDone d =>
    show fan.id ∉ (s.work.finishChild d).fans
    unfold Work.finishChild
    simp only
    split
    · exact h
    · unfold Work.settleChild
      simp only
      split
      · split <;> exact h
      · exact fun hmem => h (settleFans_mem.1 hmem)
  | _ => exact h

/-- **Every event keeps the fan-out as its settlements tell it.** -/
theorem polling_kept {x : Ext} (hfan : fl.node fan.id = some fan) (hjoin : fl.joinOf fan.id = some join.id)
    (hj : fl.node join.id = some join) (hsub : ∀ b ∈ fl.waitFor join.id, b ∈ fan.branches) :
    Lasting x fl fun l s => Polling fl fan join s.work.toOpen (poll fan.id l) where
  new _ := Std.ExtTreeMap.not_mem_empty
  alike h ha := by rw [← ha.work]; exact h
  step {l s s' req ev base} h hp hapt hf happ := by
    rw [poll_snoc, State.apply_work happ]
    cases hv : poll fan.id l with
    | none =>
      rw [hv] at h
      exact closed_step hfan hjoin h hp.offer hapt hf
    | some v =>
      rw [hv] at h
      obtain ⟨f, h⟩ := h
      exact h.step hj hsub hp.offer hapt hf
  fork {l src req ev d s s'} h _ _ _ hd hstate happ := by
    have hwork := State.apply_forked_open hd hstate happ
    have hsame : pollStep fan.id (poll fan.id l) (.forked d) = poll fan.id l := by
      simp [pollStep, Payload.settlement]
    rw [poll_snoc, hwork, hd, hsame]
    exact h

end

/-! ## When the join settles -/

/-- Only the awaited branches count. -/
theorem Fixed.congr {kind : JoinKind} {waits : List String} {ok : Bool} (h : Fixed kind waits v ok)
    (hl : ∀ b ∈ waits, v.lookup b = v'.lookup b) : Fixed kind waits v' ok where
  verdict a ha := by
    have hsame : waits.countP a = waits.countP fun b => if b ∈ waits then a b else (v.lookup b).getD false := by
      refine List.countP_congr fun b hb => ?_
      rw [if_pos hb]
    rw [hsame]
    refine h.verdict _ fun b ok' hb => ?_
    by_cases hw : b ∈ waits
    · rw [if_pos hw]
      exact ha b ok' ((hl b hw).symm.trans hb)
    · rw [if_neg hw, hb]
      rfl
  all q hq b hb := by
    have := h.all q hq b hb
    rw [← not_not (a := b ∈ _), ← lookup_none] at this ⊢
    rwa [← hl b hb]

/-- Once every awaited branch has settled the verdict is fixed. -/
theorem fixed_of_all {kind : JoinKind} {waits : List String} (h : ∀ b ∈ waits, b ∈ v.map Prod.fst) :
    ∃ ok, Fixed kind waits v ok := by
  refine ⟨Decidable.decide (kind.needed waits.length ≤ waits.countP (yes v)), fun a ha => ?_, fun _ _ => h⟩
  have h1 := ha.yes_le (W := waits)
  have h2 := ha.le_out (W := waits)
  rw [countP_out, countP_out_zero.2 h] at h2
  rw [decide_eq_true_iff]
  omega

/-- The join waits: the branches `v` have settled, and neither they nor fewer of them fix its verdict. -/
structure JoinWaits (fl : Flow) (fan join : Node) (v : List (String × Bool)) (s : State) : Prop where
  distinct : (v.map Prod.fst).Nodup
  branches : ∀ b ∈ v.map Prod.fst, b ∈ fan.branches
  recorded : ∃ f, s.fans[fan.id]? = some f ∧ ∀ b ∈ fan.branches, f.branches[b]? = some (outcomeOf v b)
  unfixed : ∀ w ok, w <+: v → ¬ Fixed join.joinKind (fl.waitFor join.id) w ok
  waiting : ∃ b ∈ fl.waitFor join.id, b ∉ v.map Prod.fst

/-- The join settles by `d` in state `s`, with the verdict that the branches `v` fixed and fewer of them did not; the
other branches are cancelled and nothing stays open. -/
structure JoinSettles (fl : Flow) (fan join : Node) (v : List (String × Bool)) (d : Event.Join) (s s' : State) : Prop where
  distinct : (v.map Prod.fst).Nodup
  branches : ∀ b ∈ v.map Prod.fst, b ∈ fan.branches
  fixed : Fixed join.joinKind (fl.waitFor join.id) v d.ok
  first : ∀ w ok, w <+: v → w ≠ v → ¬ Fixed join.joinKind (fl.waitFor join.id) w ok
  awaited : ∃ w b ok, v = w ++ [(b, ok)] ∧ b ∈ fl.waitFor join.id
  recorded : ∀ b ∈ fan.branches, s'.branches[b]? = some (if b ∈ v.map Prod.fst then outcomeOf v b else .cancelled)
  cancelled : ∀ (k : String) (ch : ChildState), s.children[k]? = some ch → ch.policy = .abandon ∨ ch.childID ∈ d.cancelChildren
  idle : s'.work.Idle

section
variable {x : Ext} {s s' : State} {base : Nat} {cause : Cause}

theorem Voting.waits (h : Voting fl fan join s.work.toOpen v f) (hj : fl.node join.id = some join)
    (hsub : ∀ b ∈ fl.waitFor join.id, b ∈ fan.branches) (hu : s.work.Undecided fl) : JoinWaits fl fan join v s := by
  have hget : s.work.fans[fan.id]? = some f := by rw [h.fans, get_single_self]
  have huf := hu fan.id f hget
  have hun := h.unfixed hj hsub huf
  refine ⟨h.distinct, h.branches, ⟨f, hget, fun b hb => ?_⟩, fun w ok hw => ?_, ?_⟩
  · have hbr := h.branch b
    rw [get_uncancelled, if_pos hb] at hbr
    cases hfb : f.branches[b]? with
    | none => rw [hfb] at hbr; cases hbr
    | some out =>
      have hne : out ≠ .cancelled := fun he => huf.uncancelled b (he ▸ hfb)
      rw [hfb] at hbr
      simpa [hne] using hbr
  · by_cases he : w = v
    · exact he ▸ hun ok
    · exact h.first w hw he ok
  · by_contra hall
    push Not at hall
    obtain ⟨ok, hfix⟩ := @fixed_of_all v join.joinKind _ hall
    exact hun ok hfix

/-- No verdict is fixed before a branch has settled. -/
theorem not_fixed_nil (hok : JoinOk fl join) (hne : fl.waitFor join.id ≠ []) (ok : Bool) :
    ¬ Fixed join.joinKind (fl.waitFor join.id) [] ok := by
  have hall : ∀ b ∈ fl.waitFor join.id, branchOutcome ⟨join.id, ∅⟩ b = .pending := by
    intro b _
    simp [branchOutcome]
  have hnone := tally_open (f := ⟨join.id, ∅⟩) hok hne hall
  rw [← tally_fixed (f := ⟨join.id, ∅⟩) hall]
  show (tally join.joinKind (fl.waitFor join.id) _).verdict ≠ _
  rw [hnone]
  simp

theorem JoinSettles.last (hok : JoinOk fl join) (hne : fl.waitFor join.id ≠ []) {ok : Bool}
    (hfix : Fixed join.joinKind (fl.waitFor join.id) v ok)
    (hfirst : ∀ w ok, w <+: v → w ≠ v → ¬ Fixed join.joinKind (fl.waitFor join.id) w ok) (hnd : (v.map Prod.fst).Nodup) :
    ∃ w b ok, v = w ++ [(b, ok)] ∧ b ∈ fl.waitFor join.id := by
  rcases List.eq_nil_or_concat v with rfl | ⟨w, ⟨b, ok'⟩, rfl⟩
  · exact absurd hfix (not_fixed_nil hok hne ok)
  · refine ⟨w, b, ok', List.concat_eq_append, ?_⟩
    rw [List.concat_eq_append] at hfix hfirst hnd
    by_contra hb
    refine hfirst w ok (List.prefix_append _ _) (by simp) (hfix.congr fun b' hb' => ?_)
    have hne' : (b' == b) = false := by
      have : b' ≠ b := fun he => hb (he ▸ hb')
      simp [this]
    rw [List.lookup_append]
    simp [List.lookup_cons, hne']

theorem mem_ownedNodes {owner b : String} : b ∈ s.ownedNodes owner ↔
    ∃ (k : String) (ch : ChildState), s.children[k]? = some ch ∧ ch.owner = owner ∧ ch.nodeOf k = b := by
  simp only [State.ownedNodes, List.mem_map, List.mem_filter, beq_iff_eq]
  constructor
  · rintro ⟨⟨k, ch⟩, ⟨hmem, howner⟩, hb⟩
    exact ⟨k, ch, Std.ExtTreeMap.mem_toList_iff_getElem?_eq_some.1 hmem, howner, hb⟩
  · rintro ⟨k, ch, hget, howner, hb⟩
    exact ⟨(k, ch), ⟨Std.ExtTreeMap.mem_toList_iff_getElem?_eq_some.2 hget, howner⟩, hb⟩

theorem mem_ownedChildren {owner k : String} {ch : ChildState} (hget : s.children[k]? = some ch) (howner : ch.owner = owner)
    (hp : ch.policy ≠ .abandon) : ch.childID ∈ ownedChildren s owner := by
  simp only [ownedChildren, List.mem_map, List.mem_filter]
  exact ⟨(k, ch), ⟨Std.ExtTreeMap.mem_toList_iff_getElem?_eq_some.2 hget, by simp [howner, hp]⟩, rfl⟩

theorem Voting.closes (h : Voting fl fan join s.work.toOpen v f) (hj : fl.node join.id = some join)
    (hsub : ∀ b ∈ fl.waitFor join.id, b ∈ fan.branches) (hok : JoinOk fl join) (hne : fl.waitFor join.id ≠ [])
    {ev : Event} {d : Event.Join} (hd : ev.data = .join d) (hfan : d.fanout = fan.id) (ho : Offer fl base s (.join d))
    (ha : (Payload.join d).Apt cause fl s) (happ : s.apply x.quote fl ev = .ok s') : JoinSettles fl fan join v d s s' := by
  obtain ⟨f', jn, hget, hjn, hclose⟩ := ha
  have hwork : s'.work = s.work.closeFan d.fanout := by rw [State.apply_work happ, hd]; rfl
  have hff : s.work.fans[d.fanout]? = some f' := hget
  rw [h.fans, hfan, get_single_self] at hff
  cases hff
  rw [h.joined, hj] at hjn
  cases hjn
  have hfix : Fixed join.joinKind (fl.waitFor join.id) v d.ok := by
    refine (tally_fixed fun b hb => ?_).1 hclose.verdict
    unfold branchOutcome
    rw [Std.ExtTreeMap.getD_eq_getD_getElem?, h.branch b, if_pos (hsub b hb)]
    rfl
  have hbranches : s'.branches = (s.ownedNodes d.fanout).foldl (fun m b => m.insert b .cancelled) f.branches := by
    obtain ⟨-, s₁, hs₁, rfl⟩ := State.apply_ok.1 happ
    simp only [State.applyData, hd] at hs₁
    cases hs₁
    simp only [State.applyJoin, hget]
    rfl
  have hfirst : ∀ w ok, w <+: v → w ≠ v → ¬ Fixed join.joinKind (fl.waitFor join.id) w ok := fun w ok hw he => h.first w hw he ok
  refine ⟨h.distinct, h.branches, hfix, hfirst, JoinSettles.last hok hne hfix hfirst h.distinct, fun b hb => ?_,
    fun k ch hch => ?_, by rw [hwork]; exact hclose.idle⟩
  · have hbr := h.branch b
    rw [get_uncancelled, if_pos hb] at hbr
    rw [hbranches, get_insertAll]
    by_cases hmem : b ∈ v.map Prod.fst
    · -- a settled branch is no child's, so its outcome stays
      obtain ⟨ok, hl⟩ := Option.ne_none_iff_exists'.1 fun hn => lookup_none.1 hn hmem
      have hnot : b ∉ s.ownedNodes d.fanout := by
        intro hin
        obtain ⟨k, ch, hch, -, hk⟩ := mem_ownedNodes.1 hin
        obtain ⟨-, hnode, hpend⟩ := h.child hch
        have : k = b := by
          unfold ChildState.nodeOf at hk
          split at hk
          · exact hk
          · exact hnode.symm.trans hk
        rw [this] at hpend
        rw [(h.pending hpend).2] at hl
        cases hl
      rw [if_neg hnot, if_pos hmem]
      cases hfb : f.branches[b]? with
      | none => rw [hfb] at hbr; cases hbr
      | some out =>
        rw [hfb] at hbr
        have hout : (if out = .cancelled then .pending else out) = outcomeOf v b := Option.some.inj hbr
        by_cases hc : out = .cancelled
        · rw [if_pos hc] at hout
          unfold outcomeOf at hout
          rw [hl] at hout
          cases ok <;> cases hout
        · rw [if_neg hc] at hout
          rw [hout]
    · rw [if_neg hmem]
      have hpend : outcomeOf v b = .pending := by
        unfold outcomeOf
        rw [lookup_none.2 hmem]
      split
      · rfl
      · rename_i hnot
        cases hfb : f.branches[b]? with
        | none => rw [hfb] at hbr; cases hbr
        | some out =>
          rw [hfb, hpend] at hbr
          have hout : (if out = .cancelled then .pending else out) = .pending := Option.some.inj hbr
          by_cases hc : out = .cancelled
          · rw [hc]
          · rw [if_neg hc] at hout
            rw [hout] at hfb
            obtain ⟨ch, hch, howner, hnode⟩ := hclose.children hfb
            refine absurd (mem_ownedNodes.2 ⟨b, ch, hch, howner, ?_⟩) hnot
            unfold ChildState.nodeOf
            split
            · rfl
            · exact hnode
  · by_cases hp : ch.policy = .abandon
    · exact .inl hp
    · right
      rw [ho.2, hfan]
      exact mem_ownedChildren hch (h.child hch).1 hp

/-- A fan-out that closes is closed by its join, or with the execution. -/
theorem poll_closes {req : Request} : ∀ {evs : List Event} {l : List (Request × Event)}, (poll fan.id l).isSome = true →
    poll fan.id (l ++ evs.map fun ev => (req, ev)) = none →
    ∃ ev ∈ evs, ev.data.terminal = true ∨ ∃ d, ev.data = .join d ∧ d.fanout = fan.id
  | [], l, hl, hn => by
    rw [List.map_nil, List.append_nil] at hn
    rw [hn] at hl
    cases hl
  | ev :: evs, l, hl, hn => by
    obtain ⟨v, hv⟩ := Option.isSome_iff_exists.1 hl
    have hrest : (poll fan.id (l ++ [(req, ev)])).isSome = true →
        ∃ ev' ∈ ev :: evs, ev'.data.terminal = true ∨ ∃ d, ev'.data = .join d ∧ d.fanout = fan.id := by
      intro hsome
      obtain ⟨ev', hmem, hev'⟩ := poll_closes (l := l ++ [(req, ev)]) hsome (by rw [List.append_assoc]; exact hn)
      exact ⟨ev', List.mem_cons_of_mem _ hmem, hev'⟩
    rw [poll_snoc, hv] at hrest
    cases hd : ev.data with
    | completed d => exact ⟨ev, List.mem_cons_self, .inl (by rw [hd]; rfl)⟩
    | failed d => exact ⟨ev, List.mem_cons_self, .inl (by rw [hd]; rfl)⟩
    | cancelled d => exact ⟨ev, List.mem_cons_self, .inl (by rw [hd]; rfl)⟩
    | join d =>
      by_cases hf : d.fanout = fan.id
      · exact ⟨ev, List.mem_cons_self, .inr ⟨d, hd, hf⟩⟩
      · refine hrest ?_
        simp [hd, pollStep, hf]
    | fanout d =>
      refine hrest ?_
      simp only [hd, pollStep]
      split <;> rfl
    | _ => exact hrest (by rw [hd]; rfl)

/-- **A join's verdict does not depend on the order of its branches.** While a fan-out is open no verdict is fixed by the
branches that have settled; it closes with the execution or by its join, and the join settles in every order at the first
settlement that fixes the verdict, with that verdict. -/
theorem join_concludes (hv : validate x fl = []) (hfan : fl.node fan.id = some fan) (ht : fan.type = .fanout) :
    ∃ join, fl.joinOf fan.id = some join.id ∧ fl.node join.id = some join ∧
      (∀ s line, Lineage x fl s line → (fan.id ∈ s.fans ↔ (poll fan.id (moves line)).isSome = true) ∧
        ∀ v, poll fan.id (moves line) = some v → JoinWaits fl fan join v s) ∧
      ∀ before s req evs s', Turn x fl before s req evs s' →
        ((poll fan.id (moves before)).isSome = true → poll fan.id (moves before ++ evs.map fun ev => (req, ev)) = none →
          ∃ ev ∈ evs, ev.data.terminal = true ∨ ∃ d, ev.data = .join d ∧ d.fanout = fan.id) ∧
        ∀ e₁ ev e₂ d, evs = e₁ ++ ev :: e₂ → ev.data = .join d → d.fanout = fan.id →
          ∃ v s₁ s₂, poll fan.id (moves before ++ e₁.map fun ev => (req, ev)) = some v ∧
            replay (State.apply x.quote fl) s e₁ = .ok s₁ ∧ s₁.apply x.quote fl ev = .ok s₂ ∧
            JoinSettles fl fan join v d s₁ s₂ := by
  have ck := checked_of_validate hv
  obtain ⟨join, hjo, hj, hjt, hne, hsub⟩ := (ck.fan hfan ht).join
  have kept := @polling_kept fl fan join x hfan hjo hj hsub
  refine ⟨join, hjo, hj, fun s line hl => ?_, fun before s req evs s' hturn => ⟨poll_closes, fun e₁ ev e₂ d he hd hf => ?_⟩⟩
  · have hI := kept.lineage ck hl
    obtain ⟨log, hr⟩ := hl.reachable
    cases hp : poll fan.id (moves line) with
    | none =>
      rw [hp] at hI
      have hI : fan.id ∉ s.fans := hI
      simp [hI]
    | some v =>
      rw [hp] at hI
      obtain ⟨f, hvote⟩ := hI
      have hmem : fan.id ∈ s.fans := by
        refine mem_of_get (m := s.work.fans) (v := f) ?_
        rw [hvote.fans, get_single_self]
      refine ⟨by simp [hmem], fun v' hv' => ?_⟩
      cases hv'
      exact hvote.waits hj hsub (hr.undecided ck)
  · obtain ⟨base, s₁, s₂, hrep, hI, hsaid, happ, -, -⟩ := kept.turn ck hturn he (by rw [hd]; rfl)
    have hapt := hsaid.apt
    have hoff := hsaid.promise.offer
    rw [hd] at hapt hoff
    cases hp : poll fan.id (moves before ++ e₁.map fun ev => (req, ev)) with
    | none =>
      rw [hp] at hI
      obtain ⟨f, hget⟩ := Option.isSome_iff_exists.1 hoff.1
      rw [hf] at hget
      exact absurd (mem_of_get hget) hI
    | some v =>
      rw [hp] at hI
      obtain ⟨f, hvote⟩ := hI
      exact ⟨v, s₁, s₂, rfl, hrep, happ, hvote.closes hj hsub (ck.joins hj hjt) hne hd hf hoff hapt happ⟩

end

end

/-! The first of two awaited reviews ends a race; a third review is not awaited. -/

def raceSplit : Node := { id := "split", type := .fanout, branches := ["lint", "draft", "check"], next := "merge" }

def raceMerge : Node := { id := "merge", type := .join, waitFor := ["draft", "check"], policy := "any", next := "publish" }

def raceReview : Flow :=
  { oneTask with
    nodes := [raceSplit, { id := "lint", type := .task, kind := "read" }, { id := "draft", type := .task, kind := "write" },
      { id := "check", type := .task, kind := "read" }, raceMerge, { id := "publish", type := .task, kind := "write" }] }

theorem raceReview_valid : validate plainExt raceReview = [] := by decide +kernel

def raceRun : State × List Entry :=
  (attend plainExt raceReview (State.new "r1") []
    [(startReview, 1), (⟨"done-1", .complete { key := "lint", generation := 1, attempt := 1 }⟩, 2)]).get (by decide +kernel)

def raceEnd : Command := ⟨"done-2", .complete { key := "draft", generation := 2, attempt := 1 }⟩

theorem raceRun_settles : ∃ d s₁ s₂, JoinSettles raceReview raceSplit raceMerge [("lint", true), ("draft", true)] d s₁ s₂ ∧
    d.ok = true ∧ s₂.branches["check"]? = some .cancelled := by
  have hl : Lineage plainExt raceReview raceRun.1 raceRun.2 := (Lineage.new "r1").attend (Option.some_get _).symm
  obtain ⟨join, hjo, hj, -, hturn⟩ := @join_concludes raceReview raceSplit plainExt raceReview_valid rfl rfl
  have hrun : (decide plainExt raceReview raceRun.1 raceEnd 3).result.isOk = true ∧
      (let evs := (decide plainExt raceReview raceRun.1 raceEnd 3).events
       ((evs[3]?).bind fun ev => match ev.data with | .join d => some (d.fanout, d.ok) | _ => none) = some ("split", true) ∧
       poll "split" (moves raceRun.2 ++ (evs.take 3).map fun ev => (.ask (.command raceEnd), ev)) =
         some [("lint", true), ("draft", true)]) := by decide +kernel
  obtain ⟨hok, hjoin, hpoll⟩ := hrun
  obtain ⟨ev, hev, hdata⟩ := Option.bind_eq_some_iff.1 hjoin
  have hid : join.id = "merge" := Option.some.inj (hjo.symm.trans (by decide +kernel))
  rw [hid] at hj
  obtain rfl : raceMerge = join := Option.some.inj hj
  cases hd : ev.data with
  | join d =>
    rw [hd] at hdata
    simp only [Option.some.injEq, Prod.mk.injEq] at hdata
    obtain ⟨v, s₁, s₂, hv, -, -, hsettles⟩ := (hturn raceRun.2 raceRun.1 _ _ _
      (Turn.own (.ask (.command raceEnd)) 3 hl rfl (Outcome.result_events hok))).2 _ ev _ d (eq_take_cons_drop hev) hd hdata.1
    cases hv.symm.trans hpoll
    exact ⟨d, s₁, s₂, hsettles, hdata.2, hsettles.recorded "check" (by decide)⟩
  | _ => rw [hd] at hdata; cases hdata

end Packtrail
