import Packtrail.Transparent
import Packtrail.Redelivery
import Packtrail.Maps

/-
# Running and waiting

`recomputeStatus` (`internal/fold/state.go:855-876`) decides after every event whether an unfinished execution
runs or waits. The documentation calls it waiting when only awaits or interrupted tasks are open; `Dormant` says
so of the tasks and children. The code calls every execution with an open map running, also one whose items in
flight are all interrupted (`MapAsleep`). **`status_documented_iff`**: between decisions the status means what is
documented exactly when no map is asleep.
-/

namespace Packtrail

/-- The answers of workers and children. -/
def CmdData.answers : CmdData → Bool
  | .complete _ | .fail _ | .interrupt _ | .childDone _ => true
  | _ => false

namespace State

variable (s : State)

/-- No task is scheduled or waits for a retry, and no child runs. -/
def Dormant : Prop :=
  (∀ (k : String) (t : Task), s.tasks[k]? = some t → t.status = .interrupted) ∧ s.children = ∅

/-- Waiting exactly when dormant, and running otherwise; a dormant execution has an await or an interrupted task
open, and no answer of a worker or a child changes it. -/
structure StatusDocumented (x : Ext) (fl : Flow) : Prop where
  waiting : s.status = .waiting ↔ s.Dormant
  running : s.status = .running ↔ ¬s.Dormant
  opened : s.Dormant → (∃ k, k ∈ s.awaits) ∨ ∃ k, k ∈ s.tasks
  unanswered : s.Dormant → ∀ (cmd : Command) (now : Time), cmd.data.answers = true →
    Packtrail.decide x fl s cmd now = ⟨.ok [], s⟩

/-- A map is open and each of its items in flight is an interrupted task. -/
def MapAsleep : Prop :=
  ∃ (m : String) (r : MapRun), s.maps[m]? = some r ∧
    (∀ (k : String) (t : Task), s.tasks[k]? = some t → t.owner = m → t.status = .interrupted) ∧
    ∀ (k : String) (ch : ChildState), s.children[k]? = some ch → ch.owner ≠ m

variable {s}

theorem recomputeStatus_waiting : s.recomputeStatus = .waiting ↔
    s.Dormant ∧ s.maps = ∅ ∧ (s.awaits ≠ ∅ ∨ s.tasks ≠ ∅) := by
  have hasleep : (s.tasks.toList.any fun kt => kt.2.status ≠ .interrupted) = false ↔
      ∀ (k : String) (t : Task), s.tasks[k]? = some t → t.status = .interrupted := by
    simp only [List.any_eq_false, Prod.forall, Std.ExtTreeMap.mem_toList_iff_getElem?_eq_some, ne_eq, decide_not,
      Bool.not_eq_true', decide_eq_false_iff_not, not_not]
  have hempty : ∀ {V : Type} {m : SMap V}, m = ∅ ↔ m.isEmpty = true := Std.ExtTreeMap.isEmpty_iff.symm
  unfold recomputeStatus Dormant
  rw [← hasleep, hempty, hempty, ne_eq, hempty, ne_eq, hempty]
  generalize (s.tasks.toList.any fun kt => kt.2.status ≠ .interrupted) = awake
  cases awake <;> cases s.children.isEmpty <;> cases s.maps.isEmpty <;> cases s.awaits.isEmpty <;> cases s.tasks.isEmpty <;> simp

/-! ## What is in progress -/

variable {x : Ext} {fl : Flow}

/-- What is in progress and dormant is an await or an interrupted task. -/
theorem Dormant.opened (h : s.Dormant) (hp : OneInProgress fl s) : (∃ k, k ∈ s.awaits) ∨ ∃ k, k ∈ s.tasks := by
  have hchild : ∀ k, k ∉ s.children := fun k => by rw [h.2]; exact Std.ExtTreeMap.not_mem_empty
  cases hp with
  | @task k t tasks _ _ _ _ _ => exact .inr ⟨k, by rw [tasks, mem_single]⟩
  | @await k a awaits _ _ _ _ => exact .inl ⟨k, by rw [awaits, mem_single]⟩
  | @child k ch children _ _ _ _ _ _ => exact absurd (by rw [children, mem_single]) (hchild k)
  | @fan fan f _ pending _ _ _ waits _ _ =>
    obtain ⟨b, -, hb⟩ := waits
    exact .inr ⟨b, ((pending b).1 hb).resolve_right (hchild b)⟩
  | map _ busy _ _ _ _ => exact .inr (busy.resolve_right fun ⟨k, hk⟩ => hchild k hk)

theorem mapAsleep_iff (hp : OneInProgress fl s) : s.MapAsleep ↔ s.Dormant ∧ s.maps ≠ ∅ := by
  constructor
  · rintro ⟨m, r, hm, htask, hchild⟩
    have hne : s.maps ≠ ∅ := fun he => by rw [he, get_empty] at hm; cases hm
    cases hp with
    | @map m' r' maps _ tasks children _ _ =>
      obtain ⟨rfl, -⟩ := get_of_single (maps ▸ hm)
      refine ⟨⟨fun k t ht => htask k t ht (tasks k t ht), eq_empty_of_get fun k => ?_⟩, hne⟩
      cases hc : s.children[k]? with
      | none => rfl
      | some ch => exact absurd (children k ch hc) (hchild k ch hc)
    | task _ _ _ maps _ _ => exact absurd maps hne
    | await _ _ _ maps _ => exact absurd maps hne
    | child _ _ _ _ _ maps _ => exact absurd maps hne
    | fan _ _ _ _ _ _ maps _ => exact absurd maps hne
  · rintro ⟨⟨htask, hchild⟩, hne⟩
    cases hm : s.maps.toList with
    | nil => exact absurd (Std.ExtTreeMap.isEmpty_iff.1 (by rw [Std.ExtTreeMap.isEmpty_toList.symm, hm]; rfl)) hne
    | cons mr l =>
      have hget := Std.ExtTreeMap.mem_toList_iff_getElem?_eq_some.1 (show (mr.1, mr.2) ∈ s.maps.toList by rw [hm]; simp)
      refine ⟨mr.1, mr.2, hget, fun k t ht _ => htask k t ht, fun k ch hc => ?_⟩
      rw [hchild, get_empty] at hc
      cases hc

/-! ## Answers -/

theorem Dormant.current_none (h : s.Dormant) (ref : Cmd.TaskRef) : current s ref = none := by
  cases hc : current s ref with
  | none => rfl
  | some t =>
    obtain ⟨ht, hst, -, -⟩ := current_some hc
    rw [h.1 ref.key t ht] at hst
    cases hst

theorem Dormant.unanswered (h : s.Dormant) (hex : s.exists = true) {cmd : Command} (hans : cmd.data.answers = true)
    (now : Time) : Packtrail.decide x fl s cmd now = ⟨.ok [], s⟩ := by
  have hquiet : cmd.data.reacts s = false := by
    cases hd : cmd.data with
    | complete p => simp [CmdData.reacts, h.current_none]
    | fail p => simp [CmdData.reacts, h.current_none]
    | interrupt p => simp [CmdData.reacts, h.current_none]
    | childDone p => simp [CmdData.reacts, childOf, h.2]
    | _ => rw [hd] at hans; cases hans
  exact CmdData.Quiet.decide ⟨by simpa [State.exists] using hex, .inl hquiet⟩ now

end State

/-- **The status means what is documented exactly when no map is asleep.** -/
theorem status_documented_iff {x : Ext} {fl : Flow} {s : State} {log : List (List Event)} (hv : validate x fl = [])
    (h : Reachable x fl s log) (hex : s.exists = true) (hlive : s.status.terminal = false) :
    s.StatusDocumented x fl ↔ ¬s.MapAsleep := by
  have wf := wellFormed_of_validate hv
  rcases (h.tracked wf).settled hex with he | ⟨hu, hr⟩
  · rw [he.status] at hlive; cases hlive
  have hp : OneInProgress fl s := hr.progress.one
  have hst : s.status = s.recomputeStatus := by
    rcases h.statusFits wf with ht | hunset | hst
    · rw [hlive] at ht; cases ht
    · rcases hu.live.status with hs | hs <;> rw [hs] at hunset <;> cases hunset
    · exact hst
  have hopen : s.Dormant → s.awaits ≠ ∅ ∨ s.tasks ≠ ∅ := fun hd =>
    (hd.opened hp).imp (fun ⟨k, hk⟩ he => by simp [he] at hk) (fun ⟨k, hk⟩ he => by simp [he] at hk)
  have hwaiting : s.status = .waiting ↔ s.Dormant ∧ s.maps = ∅ := by
    rw [hst, State.recomputeStatus_waiting]
    exact ⟨fun h => ⟨h.1, h.2.1⟩, fun h => ⟨h.1, h.2, hopen h.1⟩⟩
  rw [State.mapAsleep_iff hp]
  constructor
  · rintro hdoc ⟨hd, hne⟩
    exact hne (hwaiting.1 (hdoc.waiting.2 hd)).2
  · intro hawake
    have hiff : s.status = .waiting ↔ s.Dormant :=
      hwaiting.trans ⟨And.left, fun hd => ⟨hd, by_contra fun hne => hawake ⟨hd, hne⟩⟩⟩
    refine ⟨hiff, ?_, fun hd => hd.opened hp, fun hd cmd now hans => hd.unanswered hex hans now⟩
    rw [← hiff, hst]
    rcases s.recomputeStatus_live with hrun | hwait
    · simp [hrun]
    · simp [hwait]

/-- The one task of `oneTask` asks for input. -/
def askedReview : State × List (List Event) :=
  (serve plainExt oneTask (State.new "r1") [] [(startReview, 1), (askReview 1, 2)]).get (by decide +kernel)

theorem askedReview_documented : askedReview.1.status = .waiting ∧ askedReview.1.StatusDocumented plainExt oneTask := by
  have hr : Reachable plainExt oneTask askedReview.1 askedReview.2 := (Reachable.new "r1").serve (Option.some_get _).symm
  refine ⟨by decide +kernel, (status_documented_iff oneTask_valid hr (by decide +kernel) (by decide +kernel)).2 ?_⟩
  rintro ⟨m, r, hm, -⟩
  have hempty : askedReview.1.maps.isEmpty = true := by decide +kernel
  rw [Std.ExtTreeMap.isEmpty_iff.1 hempty, get_empty] at hm
  cases hm

def askPage (key : String) (generation : Nat) : Command := ⟨"ask-" ++ key, .interrupt { key, generation, attempt := 1 }⟩

/-- Both items of the map of `pageReview` ask for input. -/
def askedPages : State × List (List Event) :=
  (serve pairExt pageReview (State.new "r1") [] [(startReview, 1), (askPage "each#0" 1, 2), (askPage "each#1" 2, 3)]).get
    (by decide +kernel)

/-- Nothing but the two interrupted items is open, and the execution is said to run. -/
theorem askedPages_running : validate pairExt pageReview = [] ∧ Reachable pairExt pageReview askedPages.1 askedPages.2 ∧
    askedPages.1.Dormant ∧ askedPages.1.status = .running ∧
    (askedPages.1.tasks.toList.map fun kt => (kt.1, kt.2.status)) = [("each#0", .interrupted), ("each#1", .interrupted)] := by
  have htasks : (askedPages.1.tasks.toList.map fun kt => (kt.1, kt.2.status)) =
      [("each#0", .interrupted), ("each#1", .interrupted)] := by decide +kernel
  refine ⟨pageReview_valid, (Reachable.new "r1").serve (Option.some_get _).symm, ⟨fun k t ht => ?_, ?_⟩, by decide +kernel, htasks⟩
  · have hmem := List.mem_map_of_mem (f := fun kt : String × Task => (kt.1, kt.2.status))
      (Std.ExtTreeMap.mem_toList_iff_getElem?_eq_some.2 ht)
    rw [htasks] at hmem
    simp only [List.mem_cons, Prod.mk.injEq, List.not_mem_nil, or_false] at hmem
    rcases hmem with ⟨-, h⟩ | ⟨-, h⟩ <;> exact h
  · exact Std.ExtTreeMap.isEmpty_iff.1 (show askedPages.1.children.isEmpty = true by decide +kernel)

end Packtrail
