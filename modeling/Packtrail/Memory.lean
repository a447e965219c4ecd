import Packtrail.Lib.Recall
import Packtrail.Lineage
import Packtrail.Decisions

/-
# Remembered ids

A signal or an update whose command id is remembered is not accepted again. Both memories are bounded:
recording an id forgets those more than a day older than it, then the oldest beyond ten thousand
(`rememberID`, `internal/fold/state.go:825-853`). Event times come from the decision's clock and need
not increase.

`rememberID` is a memory in the sense of `Lib.Recall` (**`records_rememberID`**), and the events of an
execution record ids one after the other, each new to the memory (**`Reachable.accepts`**). A fork
begins with the memory of its source and the id of its own edit, which nobody checks.
-/

namespace Packtrail

open Replay Recall State

/-! ## Recording an id -/

theorem olderID_iff {a b : String × Time} : olderID a b = true ↔ a.2 < b.2 ∨ a.2 = b.2 ∧ a.1 ≤ b.1 := by
  unfold olderID
  by_cases h : a.2 = b.2
  · simp [h]
  · simp [h, lt_iff_le_and_ne]

theorem olderID_trans (a b c : String × Time) (hab : olderID a b = true) (hbc : olderID b c = true) : olderID a c = true := by
  rw [olderID_iff] at *
  rcases hab with hab | ⟨hab, hab'⟩ <;> rcases hbc with hbc | ⟨hbc, hbc'⟩
  · exact .inl (hab.trans hbc)
  · exact .inl (hbc ▸ hab)
  · exact .inl (hab ▸ hbc)
  · exact .inr ⟨hab.trans hbc, String.le_trans hab' hbc'⟩

theorem olderID_total (a b : String × Time) : (olderID a b || olderID b a) = true := by
  rw [Bool.or_eq_true, olderID_iff, olderID_iff]
  rcases lt_trichotomy a.2 b.2 with h | h | h
  · exact .inl (.inl h)
  · exact (String.le_total a.1 b.1).imp (fun hs => .inr ⟨h, hs⟩) fun hs => .inr ⟨h.symm, hs⟩
  · exact .inr (.inl h)

theorem olderID_le {a b : String × Time} (h : olderID a b = true) : a.2 ≤ b.2 :=
  (olderID_iff.1 h).elim le_of_lt fun h => h.1.le

/-- Oldest first. -/
def byAge (m : SMap Time) : List (String × Time) := m.toList.mergeSort olderID

section
variable {m : SMap Time} {id k : String} {t u : Time}

theorem mem_byAge : (k, u) ∈ byAge m ↔ m[k]? = some u :=
  (List.mergeSort_perm _ _).mem_iff.trans Std.ExtTreeMap.mem_toList_iff_getElem?_eq_some

theorem byAge_length (m : SMap Time) : (byAge m).length = m.size :=
  (List.mergeSort_perm _ _).length_eq.trans Std.ExtTreeMap.length_toList

theorem byAge_nodup (m : SMap Time) : ((byAge m).map Prod.fst).Nodup := by
  have hp : ((byAge m).map Prod.fst).Perm (m.toList.map Prod.fst) := (List.mergeSort_perm _ _).map _
  rw [hp.nodup_iff, Std.ExtTreeMap.map_fst_toList_eq_keys]
  exact Std.ExtTreeMap.nodup_keys

theorem get_eraseAll {l : List (String × Time)} :
    (l.foldl (fun m kv => m.erase kv.1) m)[k]? = if k ∈ l.map Prod.fst then none else m[k]? := by
  induction l generalizing m with
  | nil => simp
  | cons a l ih =>
    rw [List.foldl_cons, ih, get_erase]
    by_cases hl : k ∈ l.map Prod.fst
    · simp [hl]
    · by_cases ha : a.1 = k
      · simp [ha]
      · simp [hl, ha, Ne.symm ha]

/-- The memory once `id` is in and what is too old is out. -/
def withinWindow (m : SMap Time) (id : String) (t : Time) : SMap Time :=
  (m.insert id t).filter fun _ u => t - u ≤ signalIDWindow

theorem get_withinWindow : (withinWindow m id t)[k]? = some u ↔
    ((k, u) = (id, t) ∨ k ≠ id ∧ m[k]? = some u) ∧ t - u ≤ signalIDWindow := by
  unfold withinWindow
  rw [get_filter, get_insert, decide_eq_true_eq, Prod.mk.injEq]
  by_cases hk : id = k
  · simp [hk, eq_comm]
  · simp [hk, Ne.symm hk]

theorem get_rememberID : (rememberID m id t)[k]? =
    if k ∈ ((byAge (withinWindow m id t)).take ((withinWindow m id t).size - maxSignalIDs)).map Prod.fst then none
    else (withinWindow m id t)[k]? := by
  unfold rememberID
  simp only
  split
  · rename_i hle
    have hz : (withinWindow m id t).size - maxSignalIDs = 0 := Nat.sub_eq_zero_of_le hle
    rw [hz]
    simp [withinWindow]
  · exact get_eraseAll

/-- An id dropped for the capacity has as many ids that are not older. -/
theorem mem_take_byAge {m : SMap Time} {n : Nat} (hk : k ∈ ((byAge m).take n).map Prod.fst)
    (hu : m[k]? = some u) :
    ∃ S : Finset String, m.size - n ≤ S.card ∧
      ∀ j ∈ S, j ≠ k ∧ ∃ w, u ≤ w ∧ m[j]? = some w ∧ j ∉ ((byAge m).take n).map Prod.fst := by
  have hsplit : (byAge m).take n ++ (byAge m).drop n = byAge m := List.take_append_drop _ _
  have hnd := byAge_nodup m
  rw [← hsplit, List.map_append, List.nodup_append] at hnd
  obtain ⟨-, hdrop, hdisj⟩ := hnd
  have hsorted := List.pairwise_mergeSort olderID_trans olderID_total m.toList
  change List.Pairwise _ (byAge m) at hsorted
  rw [← hsplit, List.pairwise_append] at hsorted
  obtain ⟨e, he, rfl⟩ := List.mem_map.1 hk
  have heu : e.2 = u := by
    have hm : (e.1, e.2) ∈ byAge m := List.mem_of_mem_take he
    exact Option.some.inj ((mem_byAge.1 hm).symm.trans hu)
  refine ⟨(((byAge m).drop n).map Prod.fst).toFinset, ?_, fun j hj => ?_⟩
  · rw [List.toFinset_card_of_nodup hdrop, List.length_map, List.length_drop, byAge_length]
  · obtain ⟨f, hf, rfl⟩ := List.mem_map.1 (List.mem_toFinset.1 hj)
    have hmem : f.1 ∈ ((byAge m).drop n).map Prod.fst := List.mem_map_of_mem hf
    refine ⟨fun heq => hdisj _ hk _ hmem heq.symm, f.2, ?_, ?_, fun ht => hdisj _ ht _ hmem rfl⟩
    · rw [← heu]
      exact olderID_le (hsorted.2.2 e he f hf)
    · exact mem_byAge.1 (List.mem_of_mem_drop hf)

/-- An id of time `u` may be forgotten at time `t`. -/
def Outdated (u t : Time) : Prop := signalIDWindow < t - u

/-- **`rememberID` records an id in a memory of ten thousand.** -/
theorem records_rememberID (m : SMap Time) (id : String) (t : Time) :
    Records Outdated maxSignalIDs (fun k : String => m[k]?) (id, t) fun k => (rememberID m id t)[k]? := by
  constructor
  · intro k u hk
    rw [get_rememberID] at hk
    split at hk
    · cases hk
    · exact (get_withinWindow.1 hk).1.imp_right And.right
  · intro k u hin hlate
    have hget : (withinWindow m id t)[k]? = some u := get_withinWindow.2 ⟨hin, not_lt.1 hlate⟩
    simp only [get_rememberID]
    by_cases hk : k ∈ ((byAge (withinWindow m id t)).take ((withinWindow m id t).size - maxSignalIDs)).map Prod.fst
    · obtain ⟨S, hcard, hS⟩ := mem_take_byAge hk hget
      refine .inr ⟨S, ?_, fun j hj => ?_⟩
      · have hlt : maxSignalIDs < (withinWindow m id t).size := by
          by_contra hle
          rw [Nat.sub_eq_zero_of_le (not_lt.1 hle)] at hk
          simp at hk
        omega
      · obtain ⟨hne, w, hle, hw, hout⟩ := hS j hj
        exact ⟨hne, w, hle, by rw [if_neg hout]; exact hw⟩
    · exact .inl (by rw [if_neg hk]; exact hget)

theorem size_eraseAll {l : List (String × Time)} (hnd : (l.map Prod.fst).Nodup) (hl : ∀ e ∈ l, e.1 ∈ m) :
    (l.foldl (fun m kv => m.erase kv.1) m).size + l.length = m.size := by
  induction l generalizing m with
  | nil => rfl
  | cons a l ih =>
    rw [List.map_cons, List.nodup_cons] at hnd
    obtain ⟨v, hv⟩ := get_of_mem (hl a List.mem_cons_self)
    have hrest : ∀ e ∈ l, e.1 ∈ m.erase a.1 := by
      intro e he
      rw [Std.ExtTreeMap.mem_erase]
      refine ⟨fun hc => hnd.1 ?_, hl e (List.mem_cons_of_mem _ he)⟩
      rw [Std.LawfulEqCmp.compare_eq_iff_eq.1 hc]
      exact List.mem_map_of_mem he
    have h1 := ih hnd.2 hrest
    have h2 := size_erase_old hv
    rw [List.foldl_cons, List.length_cons]
    omega

/-- **No memory holds more than ten thousand ids.** -/
theorem size_rememberID (m : SMap Time) (id : String) (t : Time) : (rememberID m id t).size ≤ maxSignalIDs := by
  unfold rememberID
  simp only
  split
  · assumption
  · rename_i hgt
    obtain ⟨n, hn⟩ : ∃ n, n = (withinWindow m id t).size - maxSignalIDs := ⟨_, rfl⟩
    have hsize : maxSignalIDs < (withinWindow m id t).size := not_le.1 hgt
    have hnd := (byAge_nodup (withinWindow m id t)).sublist ((List.take_sublist n _).map Prod.fst)
    have hin : ∀ e ∈ (byAge (withinWindow m id t)).take n, e.1 ∈ withinWindow m id t := fun e he =>
      mem_of_get (mem_byAge.1 (List.mem_of_mem_take he))
    have h := size_eraseAll hnd hin
    rw [List.length_take, byAge_length] at h
    show (((byAge (withinWindow m id t)).take ((withinWindow m id t).size - maxSignalIDs)).foldl _ (withinWindow m id t)).size ≤ _
    rw [← hn]
    omega

end

/-! ## The ids of an execution -/

inductive IDKind
  | signal | update

/-- The ids a state remembers. -/
def State.remembered (s : State) : IDKind → SMap Time
  | .signal => s.signalIDs
  | .update => s.updateIDs

/-- The id an event records, with its time. -/
def Event.recordsID (κ : IDKind) (ev : Event) : Option (String × Time) :=
  match κ, ev.data with
  | .signal, .signal d => some (d.id, ev.time)
  | .update, .update d => some (d.id, ev.time)
  | _, _ => none

def recordedIDs (κ : IDKind) (evs : List Event) : List (String × Time) := evs.filterMap (Event.recordsID κ)

def rememberAll (m : SMap Time) (ids : List (String × Time)) : SMap Time := ids.foldl (fun m e => rememberID m e.1 e.2) m

/-- The memory an execution begins with: a fork's is that of its source, with the id of its own edit. -/
def inheritedIDs (κ : IDKind) : List (List Event) → SMap Time
  | (ev :: evs) :: _ =>
    match ev.data with
    | .forked d => rememberAll ((unmarshal d.state).remembered κ) (recordedIDs κ evs)
    | _ => ∅
  | _ => ∅

/-- The ids an execution accepted, in order: those of every decision but the one that forked it. -/
def acceptedIDs (κ : IDKind) : List (List Event) → List (String × Time)
  | (ev :: evs) :: log => if ev.data.isForked then recordedIDs κ log.flatten else recordedIDs κ (ev :: evs ++ log.flatten)
  | _ => []

section
variable {x : Ext} {fl : Flow} {s s' : State} {κ : IDKind} {ev : Event} {evs : List Event}

theorem State.Alike.remembered (h : s.Alike s') (κ : IDKind) : s.remembered κ = s'.remembered κ := by
  cases κ
  · show s.core.signalIDs = s'.core.signalIDs
    exact congrArg State.signalIDs h
  · show s.core.updateIDs = s'.core.updateIDs
    exact congrArg State.updateIDs h

theorem remembered_recordOutput {t : Task} {out : Raw} (h : s.recordOutput t out = .ok s') :
    s'.remembered κ = s.remembered κ := by
  unfold State.recordOutput State.recordItem at h
  (repeat' split at h) <;> cases h <;> cases κ <;> rfl

theorem remembered_settleTask (s : State) (key : String) (o : BranchStatus) :
    (s.settleTask key o).remembered κ = s.remembered κ := by
  unfold State.settleTask
  cases κ <;> split <;> rfl

theorem remembered_childDone {d : Event.ChildDone} (h : s.applyChildDone d = .ok s') :
    s'.remembered κ = s.remembered κ := by
  unfold State.applyChildDone State.recordItem at h
  simp only at h
  (repeat' split at h) <;> cases h <;> cases κ <;> rfl

theorem remembered_nodeDone {d : Event.NodeDone} (h : s.applyNodeDone x.quote fl d = .ok s') :
    s'.remembered κ = s.remembered κ := by
  obtain ⟨t, channels, s₁, -, -, hr, rfl⟩ := State.applyNodeDone_steps h
  rw [remembered_settleTask, remembered_recordOutput hr]
  cases κ <;> rfl

/-- What an event does to a memory, unless it replaces the state. -/
theorem remembered_applyData (h : s.applyData x.quote fl ev = .ok s') (hf : ev.data.isForked = false)
    (hc : ∀ d, ev.data = .continued d → (unmarshal d.state).remembered κ = s.remembered κ) :
    s'.remembered κ = rememberAll (s.remembered κ) (recordedIDs κ [ev]) := by
  have other : ev.recordsID κ = none → s'.remembered κ = s.remembered κ →
      s'.remembered κ = rememberAll (s.remembered κ) (recordedIDs κ [ev]) := fun hno he => by
    simp [recordedIDs, hno, rememberAll, he]
  unfold State.applyData at h
  cases hd : ev.data <;> simp only [hd] at h
  case forked d => rw [hd] at hf; cases hf
  case continued d =>
    refine other (by cases κ <;> simp [Event.recordsID, hd]) ?_
    cases h
    exact (by cases κ <;> rfl : _ = (unmarshal d.state).remembered κ).trans (hc d hd)
  case signal d =>
    cases h
    cases κ <;> simp [recordedIDs, Event.recordsID, hd, rememberAll, State.remembered]
  case update d =>
    unfold State.applyUpdate at h
    split at h <;> cases h
    cases κ <;> simp [recordedIDs, Event.recordsID, hd, rememberAll, State.remembered]
  all_goals refine other (by cases κ <;> simp [Event.recordsID, hd]) ?_
  case nodeDone d => exact remembered_nodeDone h
  case childDone d => exact remembered_childDone h
  case nodeCancel d => cases h; exact remembered_settleTask _ _ _
  case nodeFail d =>
    cases h
    unfold State.applyNodeFail
    split
    · rfl
    · split
      · cases κ <;> rfl
      · rw [remembered_settleTask]
        cases κ <;> rfl
  case interrupted d =>
    unfold State.applyInterrupted at h
    split at h <;> cases h
    cases κ <;> rfl
  case mapDone d =>
    unfold State.applyMapDone at h
    split at h <;> cases h
    cases κ <;> rfl
  case signalUse d =>
    unfold State.applySignalUse at h
    split at h <;> cases h
    cases κ <;> rfl
  case join d =>
    cases h
    unfold State.applyJoin
    simp only
    split <;> cases κ <;> rfl
  all_goals cases h; cases κ <;> rfl

variable {base : Nat} {log : List (List Event)}

theorem remembered_apply (hp : Promise fl base s ev) (hf : ev.data.isForked = false)
    (h : s.apply x.quote fl ev = .ok s') : s'.remembered κ = rememberAll (s.remembered κ) (recordedIDs κ [ev]) := by
  obtain ⟨-, s₁, hd, rfl⟩ := State.apply_ok.1 h
  have hfin : (s₁.finish ev).remembered κ = s₁.remembered κ := by cases κ <;> rfl
  refine hfin.trans (remembered_applyData hd hf fun d hdata => ?_)
  have ho := hp.offer
  rw [hdata] at ho
  obtain ⟨seg, q, hst⟩ := ho
  rw [hst]
  cases κ <;> rfl

theorem recordedIDs_cons (ev : Event) (evs : List Event) : recordedIDs κ (ev :: evs) = recordedIDs κ [ev] ++ recordedIDs κ evs := by
  simp only [recordedIDs, ← List.filterMap_append, List.singleton_append]

theorem remembered_path {G : State → Event → Prop}
    (hp : Path (State.apply x.quote fl) (fun s ev => Promise fl base s ev ∧ G s ev) s evs s')
    (hf : ∀ ev ∈ evs, ev.data.isForked = false) : s'.remembered κ = rememberAll (s.remembered κ) (recordedIDs κ evs) := by
  induction hp with
  | nil s => rfl
  | @cons s s₁ s' ev evs guard ok _ ih =>
    rw [ih fun e he => hf e (List.mem_cons_of_mem _ he), remembered_apply guard.1 (hf ev List.mem_cons_self) ok,
      recordedIDs_cons ev evs]
    simp only [rememberAll, List.foldl_append]

/-- A memory as the library sees it. -/
def State.idMemory (s : State) (κ : IDKind) (id : String) : Option Time := (s.remembered κ)[id]?

/-- The ids of a decision that is no fork are accepted: each is new to the memory. -/
theorem accepts_path {cause : Cause} (hc : cause ≠ .fork)
    (hp : Path (State.apply x.quote fl) (fun s ev => Promise fl base s ev ∧ ev.data.Apt cause fl s) s evs s')
    (hf : ∀ ev ∈ evs, ev.data.isForked = false) :
    Accepts Outdated maxSignalIDs (s.idMemory κ) (recordedIDs κ evs) (s'.idMemory κ) := by
  induction hp with
  | nil s => exact .nil _
  | @cons s s₁ s' ev evs guard ok _ ih =>
    have hrest := ih fun e he => hf e (List.mem_cons_of_mem _ he)
    have hnext : s₁.remembered κ = rememberAll (s.remembered κ) (recordedIDs κ [ev]) :=
      remembered_apply guard.1 (hf ev List.mem_cons_self) ok
    rw [recordedIDs_cons]
    cases hr : ev.recordsID κ with
    | none =>
      have he : recordedIDs κ [ev] = [] := by simp [recordedIDs, hr]
      have hsame : s₁.idMemory κ = s.idMemory κ := by
        funext k
        rw [State.idMemory, hnext, he]
        rfl
      rw [he, List.nil_append, ← hsame]
      exact hrest
    | some e =>
      have he : recordedIDs κ [ev] = [e] := by simp [recordedIDs, hr]
      have hone : s₁.idMemory κ = fun k => (rememberID (s.remembered κ) e.1 e.2)[k]? := by
        funext k
        rw [State.idMemory, hnext, he]
        rfl
      rw [he, List.singleton_append]
      refine .cons ?_ ?_ hrest
      · have hapt := guard.2
        cases κ <;> cases hd : ev.data <;> simp only [Event.recordsID, hd, reduceCtorEq] at hr
        · cases hr
          rw [hd] at hapt
          exact hapt
        · cases hr
          rw [hd] at hapt
          exact hapt.resolve_left hc
      · rw [hone]
        exact records_rememberID (s.remembered κ) e.1 e.2

theorem acceptedIDs_snoc (h : log.flatten ≠ []) (hne : ∀ d ∈ log, d ≠ []) (evs : List Event) :
    acceptedIDs κ (log ++ [evs]) = acceptedIDs κ log ++ recordedIDs κ evs ∧
    inheritedIDs κ (log ++ [evs]) = inheritedIDs κ log := by
  match log with
  | [] => exact absurd rfl h
  | [] :: _ => exact absurd rfl (hne [] List.mem_cons_self)
  | (ev :: evs') :: log' =>
    refine ⟨?_, rfl⟩
    simp only [List.cons_append, acceptedIDs]
    split
    · simp [recordedIDs]
    · rw [recordedIDs, recordedIDs, recordedIDs, ← List.filterMap_append]
      simp

theorem Request.cause_ne_fork {req : Request} (h : req.source = none) : req.cause ≠ .fork := by
  have hcmd : ∀ d : CmdData, d.cause ≠ .fork := fun d => by cases d <;> simp [CmdData.cause]
  have hask : ∀ {a : Ask}, a.source = none → a.cause ≠ .fork := by
    intro a ha
    cases a with
    | command cmd => exact hcmd _
    | fork => cases ha
  cases req with
  | ask a => exact hask h
  | continueAsNew seg cmdID => simp [Request.cause]
  | abort a decided cmdID reason msg => exact hask h

/-- After its first event no event of an execution begins one. -/
theorem Path.unforked {G : State → Event → Prop} (hb : 0 < s.events)
    (hp : Path (State.apply x.quote fl) (fun s ev => Promise fl base s ev ∧ G s ev) s evs s') :
    ∀ ev ∈ evs, ev.data.isForked = false := by
  induction hp with
  | nil s => simp
  | @cons s s₁ s' ev evs guard ok _ ih =>
    intro e he
    rcases List.mem_cons.1 he with rfl | he
    · exact Payload.forked_begins (guard.1.not_begins hb)
    · obtain ⟨-, s₂, -, rfl⟩ := State.apply_ok.1 ok
      exact ih (Nat.succ_pos _) e he

/-- The first decision of an execution: a fork's ids are inherited, any other's accepted. -/
theorem accepts_first {cause : Cause} (ha : s.Absent) (hm : s.remembered κ = ∅) (hne : evs ≠ [])
    (hp : Path (State.apply x.quote fl) (fun s ev => Promise fl base s ev ∧ ev.data.Apt cause fl s) s evs s') :
    Accepts Outdated maxSignalIDs (fun k : String => (inheritedIDs κ [evs])[k]?) (acceptedIDs κ [evs]) (s'.idMemory κ) := by
  cases hp with
  | nil => exact absurd rfl hne
  | @cons _ s₁ _ ev rest guard ok hrest =>
    have hb₁ : 0 < s₁.events := by
      obtain ⟨-, s₂, -, rfl⟩ := State.apply_ok.1 ok
      exact Nat.succ_pos _
    have hplain := Path.unforked hb₁ hrest
    have hbeg := guard.1.begins.2 ha.events
    cases hd : ev.data with
    | forked d =>
      have hs₁ : s₁.remembered κ = (unmarshal d.state).remembered κ := by
        obtain ⟨-, s₂, hdata, rfl⟩ := State.apply_ok.1 ok
        rw [State.applyData, hd] at hdata
        cases hdata
        cases κ <;> rfl
      have hall : s'.idMemory κ = fun k : String => (inheritedIDs κ [ev :: rest])[k]? := by
        funext k
        rw [State.idMemory, remembered_path hrest hplain, hs₁]
        simp only [inheritedIDs, hd]
      have hnone : acceptedIDs κ [ev :: rest] = [] := by simp [acceptedIDs, hd, Payload.isForked, recordedIDs]
      rw [hnone, hall]
      exact .nil _
    | started d =>
      have hc : cause ≠ .fork := by
        have := guard.2
        rw [hd] at this
        exact this
      have hrun := accepts_path (κ := κ) hc (.cons guard ok hrest) fun e he => by
        rcases List.mem_cons.1 he with rfl | he
        · rw [hd]; rfl
        · exact hplain e he
      have hstart : s.idMemory κ = fun k : String => (inheritedIDs κ [ev :: rest])[k]? := by
        funext k
        rw [State.idMemory, hm]
        simp only [inheritedIDs, hd]
      have hacc : acceptedIDs κ [ev :: rest] = recordedIDs κ (ev :: rest) := by
        simp [acceptedIDs, hd, Payload.isForked]
      rw [hacc, ← hstart]
      exact hrun
    | _ => rw [hd] at hbeg; cases hbeg

/-- **Every id an execution accepts is new to its memory**, which begins with what it inherited. -/
theorem Reachable.accepts (ck : Checked fl) (h : Reachable x fl s log) (κ : IDKind) :
    (∀ d ∈ log, d ≠ []) ∧
    Accepts Outdated maxSignalIDs (fun k : String => (inheritedIDs κ log)[k]?) (acceptedIDs κ log) (s.idMemory κ) := by
  have wf := ck.toWellFormed
  induction h with
  | new execID =>
    refine ⟨by simp, ?_⟩
    have : (State.new execID).idMemory κ = fun k : String => (inheritedIDs κ [])[k]? := by
      funext k
      cases κ <;> rfl
    rw [this]
    exact .nil _
  | reload _ ha ih =>
    refine ⟨ih.1, ?_⟩
    have hsame := ha.remembered κ
    unfold State.idMemory at ih ⊢
    rw [← hsame]
    exact ih.2
  | @step s log slog evs req now h hsrc hex hok ih _ =>
    have hfrom : req.Sourced x fl := fun src hs => ⟨hex src hs, slog, hsrc src hs⟩
    have hapt := (h.apt ck hfrom hok).1
    by_cases hne : evs = []
    · subst hne
      rw [hapt.eq_of_nil]
      exact ih
    · have hpath := ((h.tracked wf).wrote wf req (hfrom.ok wf) now hok hne).1.and hapt
      unfold record
      rw [if_neg (by simpa using hne)]
      refine ⟨fun d hd => ?_, ?_⟩
      · rcases List.mem_append.1 hd with hd | hd
        · exact ih.1 d hd
        · rw [List.mem_singleton.1 hd]
          exact hne
      cases h.tracked wf with
      | @absent hlog habs execID hnew =>
        subst hlog
        refine accepts_first habs ?_ hne hpath
        rw [← hnew.remembered κ]
        cases κ <;> rfl
      | present hset hp ha =>
        have hflat := flatten_ne_of_settled hset hp ha
        have hsource : req.source = none := by
          cases hs : req.source with
          | none => rfl
          | some src => exact absurd (Request.perform_joined hset.exists hs hok).1 hne
        have hbegun : 0 < s.events := by
          have := hset.exists
          simpa [State.exists, Nat.pos_iff_ne_zero] using this
        obtain ⟨hacc, hinh⟩ := acceptedIDs_snoc (κ := κ) hflat ih.1 evs
        rw [hacc, hinh]
        exact ih.2.append (accepts_path (Request.cause_ne_fork hsource) hpath (Path.unforked hbegun hpath))

/-- Within its bounds after any event. -/
def State.Bounded (κ : IDKind) (s : State) : Prop := (s.remembered κ).size ≤ maxSignalIDs

theorem State.Bounded.apply (h : s.Bounded κ) (hp : Promise fl base s ev) (hfork : ev.data.ForkOf (State.Bounded κ))
    (ha : s.apply x.quote fl ev = .ok s') : s'.Bounded κ := by
  cases hf : ev.data.isForked with
  | true =>
    obtain ⟨-, s₁, hd, rfl⟩ := State.apply_ok.1 ha
    cases hdata : ev.data with
    | forked d =>
      rw [hdata] at hfork
      obtain ⟨src, hsrc, hst⟩ := hfork
      rw [State.applyData, hdata] at hd
      cases hd
      have hsame : ((State.applyForked d).finish ev).remembered κ = src.remembered κ := by
        have : ((State.applyForked d).finish ev).remembered κ = (unmarshal d.state).remembered κ := by cases κ <;> rfl
        rw [this, hst]
        cases κ <;> rfl
      unfold State.Bounded
      rw [hsame]
      exact hsrc
    | _ => rw [hdata] at hf; cases hf
  | false =>
    unfold State.Bounded
    rw [remembered_apply hp hf ha]
    cases hr : ev.recordsID κ with
    | none =>
      have he : recordedIDs κ [ev] = [] := by simp [recordedIDs, hr]
      rw [he]
      exact h
    | some e =>
      have he : recordedIDs κ [ev] = [e] := by simp [recordedIDs, hr]
      rw [he]
      exact size_rememberID _ _ _

theorem Reachable.bounded (wf : WellFormed fl) (h : Reachable x fl s log) (κ : IDKind) : s.Bounded κ := by
  refine h.invariant (I := State.Bounded κ) wf (fun execID => ?_) (fun ha hb => ?_) fun hb hp _ hf ha => hb.apply hp hf ha
  · unfold State.Bounded
    cases κ <;> exact Nat.zero_le _
  · unfold State.Bounded at hb ⊢
    rw [← ha.remembered κ]
    exact hb

theorem Reachable.bounded_throughout (wf : WellFormed fl) (h : Reachable x fl s log) {execID : String}
    (hpre : evs <+: log.flatten) (hs : replay (State.apply x.quote fl) (State.new execID) evs = .ok s') : s'.Bounded κ := by
  obtain ⟨s₁, hp, -, -⟩ := h.writtenAs wf execID
  obtain ⟨more, hmore⟩ := hpre
  rw [← hmore] at hp
  obtain ⟨s₂, hfst, -⟩ := hp.split
  cases hfst.replay.symm.trans hs
  refine hfst.invariant (I := State.Bounded κ) (fun s ev s' hb hg ha => ?_) ?_
  · refine hb.apply hg.1 (hg.2.fork.mono fun src hr => ?_) ha
    obtain ⟨slog, hr⟩ := hr
    exact hr.bounded wf κ
  · unfold State.Bounded
    cases κ <;> exact Nat.zero_le _

/-- **Deduplication is bounded but safe.** An id accepted at `t`, or inherited with that time, is not accepted again
unless an id accepted since is more than a day later than `t`, or ten thousand others with a time not before `t` were
accepted or inherited; no memory ever holds more than ten thousand ids. -/
theorem accepted_once (hv : validate x fl = []) {log : List (List Event)} (h : Reachable x fl s log) (κ : IDKind) :
    (∀ before id t after e rest, acceptedIDs κ log = before ++ (id, t) :: (after ++ e :: rest) →
      (∀ f ∈ after, f.2 - t ≤ signalIDWindow) →
      (others ((inheritedIDs κ log).toList ++ before ++ after) id t).card < maxSignalIDs → e.1 ≠ id) ∧
    (∀ id t after e rest, (inheritedIDs κ log)[id]? = some t → acceptedIDs κ log = after ++ e :: rest →
      (∀ f ∈ after, f.2 - t ≤ signalIDWindow) →
      (others ((inheritedIDs κ log).toList ++ after) id t).card < maxSignalIDs → e.1 ≠ id) ∧
    ∀ evs execID s', evs <+: log.flatten → replay (State.apply x.quote fl) (State.new execID) evs = .ok s' →
      (s'.remembered κ).size ≤ maxSignalIDs := by
  have ck := checked_of_validate hv
  have hrun := (h.accepts ck κ).2
  have hbase : ∀ (k : String) (u : Time), (inheritedIDs κ log)[k]? = some u → (k, u) ∈ (inheritedIDs κ log).toList :=
    fun k u hk => Std.ExtTreeMap.mem_toList_iff_getElem?_eq_some.2 hk
  have hexc : ∀ {base after : List (String × Time)} {id : String} {t : Time}, (∀ f ∈ after, f.2 - t ≤ signalIDWindow) →
      (others (base ++ after) id t).card < maxSignalIDs → ¬ Excused Outdated maxSignalIDs base id t after := by
    rintro base after id t hafter hcard (⟨f, hf, hlate⟩ | hmany)
    · exact absurd (hafter f hf) (not_le.2 hlate)
    · omega
  refine ⟨fun before id t after e rest hacc hafter hcard => ?_, fun id t after e rest hid hacc hafter hcard => ?_,
    fun evs execID s' hpre hs => h.bounded_throughout ck.toWellFormed hpre hs⟩
  · rw [hacc] at hrun
    refine hrun.not_again hbase (fun t => ?_) (hexc hafter hcard)
    simp [Outdated, signalIDWindow]
  · rw [hacc] at hrun
    exact hrun.not_held hbase hid (hexc hafter hcard)

end

/-! Three signals, the second decided by a clock that is behind. -/

def nudgeAgain (id : String) : Command := ⟨id, .signal { name := "nudge" }⟩

def nudgedRun : State × List (List Event) :=
  (serve plainExt oneTask (State.new "r1") []
    [(startReview, 1), (nudgeAgain "sig-1", 7), (nudgeAgain "sig-2", 3), (nudgeAgain "sig-3", 9)]).get (by decide +kernel)

theorem nudgedRun_accepts :
    acceptedIDs .signal nudgedRun.2 = [("sig-1", 7), ("sig-2", 3), ("sig-3", 9)] ∧ "sig-3" ≠ "sig-1" ∧
      nudgedRun.1.signalIDs.size ≤ 10000 := by
  have hr : Reachable plainExt oneTask nudgedRun.1 nudgedRun.2 := (Reachable.new "r1").serve (Option.some_get _).symm
  have hacc : acceptedIDs .signal nudgedRun.2 = [("sig-1", 7), ("sig-2", 3), ("sig-3", 9)] ∧
      (inheritedIDs .signal nudgedRun.2).toList = [] ∧
      (replay (State.apply plainExt.quote oneTask) (State.new "r1") nudgedRun.2.flatten).toOption.map
        (fun s => s.signalIDs.toList) = some nudgedRun.1.signalIDs.toList := by decide +kernel
  obtain ⟨hacc, hinh, hsame⟩ := hacc
  obtain ⟨honce, -, hsize⟩ := accepted_once oneTask_valid hr .signal
  refine ⟨hacc, honce [] "sig-1" 7 [("sig-2", 3)] ("sig-3", 9) [] hacc (by simp [signalIDWindow]) ?_, ?_⟩
  · rw [hinh]
    decide
  · cases hrep : replay (State.apply plainExt.quote oneTask) (State.new "r1") nudgedRun.2.flatten with
    | error e => rw [hrep] at hsame; cases hsame
    | ok s' =>
      rw [hrep] at hsame
      have hlen : s'.signalIDs.toList = nudgedRun.1.signalIDs.toList := Option.some.inj hsame
      have := hsize _ "r1" s' (List.prefix_refl _) hrep
      rw [← Std.ExtTreeMap.length_toList, ← hlen, Std.ExtTreeMap.length_toList]
      exact this

end Packtrail
