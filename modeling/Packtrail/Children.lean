import Packtrail.Transparent
import Packtrail.Redelivery

/-
# Children

A child is closed in one of three ways: `ChildCompleted` reports it done, the event that closes its
parent's structure (a join, an aborted map, the end of the execution) lists it in `CancelChildren`, or,
under the abandon policy, it is dropped without a word. `Accounted` says of the log written so far that
every child is open or was closed in exactly one of these ways; `Accounted.child` and `Accounted.other`
carry it over one event. `Recorded` is what the events of every decision keep to, except the first
decision of a fork.
-/

namespace Packtrail

open Replay Emitter

/-- The children an event lists to be cancelled. -/
def Payload.cancels : Payload → List String
  | .failed d => d.cancelChildren
  | .cancelled d => d.cancelChildren
  | .join d => d.cancelChildren
  | .mapAbort d => d.cancelChildren
  | _ => []

def Payload.reports : Payload → List String
  | .childDone d => [d.childID]
  | _ => []

def listed (l : List Event) : List String := l.flatMap fun ev => ev.data.cancels

def reported (l : List Event) : List String := l.flatMap fun ev => ev.data.reports

/-- Whether `p` settles the subflow node, the fan-out or the map of child `d`, or ends the execution. -/
def Payload.settlesChild (d : Event.Child) : Payload → Bool
  | .childDone e => e.instanceKey = d.instanceKey
  | .join e => e.fanout = d.owner
  | .mapDone e => e.node = d.owner
  | .mapAbort e => e.node = d.owner
  | .completed _ | .failed _ | .cancelled _ => true
  | _ => false

/-- Whether `p` closes child `ch` without a report. -/
def Payload.closesChild (ch : ChildState) : Payload → Bool
  | .join d => ch.owner == d.fanout
  | .mapAbort d => ch.owner == d.node
  | .failed _ | .cancelled _ => true
  | _ => false

/-- A failure or a cancellation lists every open child that is not abandoned. -/
def Payload.Lists (s : State) : Payload → Prop
  | .failed d => d.cancelChildren = cancelChildren s []
  | .cancelled d => d.cancelChildren = cancelChildren s []
  | _ => True

/-- Ids are those of the execution itself. -/
def Payload.Named (x : Ext) (s : State) : Payload → Prop
  | .started d => d.execID = s.execID
  | .forked d => d.execID = s.execID
  | .child d => d.childID = childID x s.execID d.childN
  | _ => True

/-- What the events of a log keep to, except for the first decision of a fork. -/
structure Recorded (x : Ext) (fl : Flow) (base : Nat) (s : State) (ev : Event) : Prop where
  promise : Promise fl base s ev
  lists : ev.data.Lists s
  named : ev.data.Named x s
  forkless : ev.data.isForked = false

/-! ## What an event lists -/

section
variable {x : Ext} {fl : Flow} {base : Nat} {s : State} {ev : Event}

/-- The listed children are those the event closes without a report, except the abandoned ones. -/
theorem Recorded.cancels (h : Recorded x fl base s ev) :
    ev.data.cancels = (s.children.toList.filter fun kc => ev.data.closesChild kc.2 && kc.2.policy ≠ .abandon).map
      fun kc => kc.2.childID := by
  have hl := h.lists
  have ho := h.promise.offer
  cases hd : ev.data <;> rw [hd] at hl ho
  case failed d => exact Eq.trans hl (by simp [Payload.closesChild, cancelChildren])
  case cancelled d => exact Eq.trans hl (by simp [Payload.closesChild, cancelChildren])
  case join d => exact ho.2
  case mapAbort d => exact ho
  all_goals simp [Payload.cancels, Payload.closesChild]

theorem Recorded.mem_cancels (h : Recorded x fl base s ev) {id : String} :
    id ∈ ev.data.cancels ↔ ∃ (k : String) (ch : ChildState), s.children[k]? = some ch ∧ ch.childID = id ∧
      ch.policy ≠ .abandon ∧ ev.data.closesChild ch = true := by
  rw [h.cancels, List.mem_map]
  constructor
  · rintro ⟨⟨k, ch⟩, hmem, rfl⟩
    obtain ⟨hkc, hcond⟩ := List.mem_filter.1 hmem
    simp only [Bool.and_eq_true, decide_eq_true_eq] at hcond
    exact ⟨k, ch, Std.ExtTreeMap.mem_toList_iff_getElem?_eq_some.1 hkc, rfl, hcond.2, hcond.1⟩
  · rintro ⟨k, ch, hget, rfl, hpol, hcl⟩
    refine ⟨(k, ch), List.mem_filter.2 ⟨Std.ExtTreeMap.mem_toList_iff_getElem?_eq_some.2 hget, ?_⟩, rfl⟩
    simp only [Bool.and_eq_true, decide_eq_true_eq]
    exact ⟨hcl, hpol⟩

/-- Distinct children have distinct ids, so none is listed twice. -/
theorem Recorded.cancels_nodup (h : Recorded x fl base s ev) (hs : s.work.Sound fl) : ev.data.cancels.Nodup := by
  rw [h.cancels]
  have hdistinct : s.children.toList.Pairwise fun a b => a.1 ≠ b.1 := by
    have hk : s.children.keys.Nodup := Std.ExtTreeMap.nodup_keys
    rw [← Std.ExtTreeMap.map_fst_toList_eq_keys] at hk
    exact List.pairwise_map.1 hk
  refine List.pairwise_map.2 ((hdistinct.filter _).imp_of_mem ?_)
  rintro ⟨k, ch⟩ ⟨k', ch'⟩ hmem hmem' hne he
  have hget := Std.ExtTreeMap.mem_toList_iff_getElem?_eq_some.1 (List.mem_filter.1 hmem).1
  have hget' := Std.ExtTreeMap.mem_toList_iff_getElem?_eq_some.1 (List.mem_filter.1 hmem').1
  exact hne (hs.distinct hget hget' he)

end

/-! ## Every child is accounted for -/

/-- The log `l` of an execution begun by a start, and the children open at its end. -/
structure Accounted (l : List Event) (s : State) : Prop where
  nodup : (reported l ++ listed l).Nodup
  gone : ∀ {id : String}, id ∈ reported l ++ listed l →
    (∀ {k : String} {ch}, s.children[k]? = some ch → ch.childID ≠ id) ∧ ∃ m ≤ s.n, Numbered id m
  started : ∀ {k : String} {ch}, s.children[k]? = some ch → ∃ ev ∈ l, ∃ d, ev.data = .child d ∧ d.childID = ch.childID
  kept : ∀ ev ∈ l, ∀ d, ev.data = .child d → d.policy ≠ .abandon → d.childID ∈ reported l ++ listed l ∨
    ∃ ch, s.children[d.instanceKey]? = some ch ∧ ch.childID = d.childID ∧ ch.owner = d.owner ∧ ch.policy = d.policy

section
variable {x : Ext} {fl : Flow} {s s' : State} {ev : Event} {l : List Event}

theorem reported_snoc (l : List Event) (ev : Event) : reported (l ++ [ev]) = reported l ++ ev.data.reports := by
  simp [reported]

theorem listed_snoc (l : List Event) (ev : Event) : listed (l ++ [ev]) = listed l ++ ev.data.cancels := by
  simp [listed]

theorem closed_snoc (l : List Event) (ev : Event) :
    (reported (l ++ [ev]) ++ listed (l ++ [ev])).Perm (reported l ++ listed l ++ (ev.data.reports ++ ev.data.cancels)) := by
  rw [reported_snoc, listed_snoc, List.append_assoc, List.append_assoc]
  refine List.Perm.append_left _ ?_
  rw [← List.append_assoc, ← List.append_assoc]
  exact List.Perm.append_right _ List.perm_append_comm

/-- What an event reports or lists is open before it and not after it. -/
theorem Recorded.closes {base : Nat} (h : Recorded x fl base s ev) {id : String} (hid : id ∈ ev.data.reports ++ ev.data.cancels) :
    ∃ (k : String) (ch : ChildState), s.children[k]? = some ch ∧ ch.childID = id ∧ ev.data.keepsChild k ch = false := by
  rcases List.mem_append.1 hid with hid | hid
  · cases hd : ev.data <;> rw [hd] at hid <;> first | cases hid; done | skip
    rename_i d
    have ho : Offer fl base s (.childDone d) := hd ▸ h.promise.offer
    obtain ⟨ch, hch, hcid⟩ := ho
    rw [List.mem_singleton.1 hid]
    exact ⟨d.instanceKey, ch, hch, hcid, by simp [Payload.keepsChild]⟩
  · obtain ⟨k, ch, hget, hcid, -, hcl⟩ := h.mem_cancels.1 hid
    refine ⟨k, ch, hget, hcid, ?_⟩
    cases hd : ev.data <;> rw [hd] at hcl <;> first | rfl | cases hcl | simp_all [Payload.closesChild, Payload.keepsChild]

theorem Recorded.closes_nodup {base : Nat} (h : Recorded x fl base s ev) (hs : s.work.Sound fl) :
    (ev.data.reports ++ ev.data.cancels).Nodup := by
  have hn := h.cancels_nodup hs
  cases hd : ev.data <;> rw [hd] at hn <;> first | exact hn | exact List.nodup_singleton _

theorem Accounted.child {d : Event.Child} (h : Accounted l s) (hown : s.work.OwnChildren 0)
    (hp : Promise fl 0 s ev) (hd : ev.data = .child d) (hw : s'.work = s.work.step ev.data) : Accounted (l ++ [ev]) s' := by
  have ho : Offer fl 0 s (.child d) := hd ▸ hp.offer
  obtain ⟨hn, hnum, hfree⟩ := ho
  rw [hd] at hw
  have hch : s'.children = s.children.insert d.instanceKey ⟨d.childID, d.flow, d.policy, d.node, d.owner, d.index⟩ :=
    show s'.work.children = _ by rw [hw]; rfl
  have hle : s.n ≤ s'.n := show s.work.n ≤ s'.work.n by rw [hw]; exact le_max_left _ _
  have hclosed : reported (l ++ [ev]) ++ listed (l ++ [ev]) = reported l ++ listed l := by
    rw [reported_snoc, listed_snoc, hd]
    simp [Payload.reports, Payload.cancels]
  -- nothing is replaced: an execution begun by a start inherited no child
  have hnew : s.children[d.instanceKey]? = none := by
    cases hget : s.children[d.instanceKey]? with
    | none => rfl
    | some ch =>
      obtain ⟨m, hm, hnm⟩ := hfree ch hget
      obtain ⟨m', hm', hnm'⟩ := hown hget
      have := hnm.inj hnm'
      omega
  refine ⟨by rw [hclosed]; exact h.nodup, fun {id} hid => ?_, fun {k ch} hget => ?_, fun ev' hev' d' hd' hpol => ?_⟩
  · rw [hclosed] at hid
    obtain ⟨hgone, m, hm, hnm⟩ := h.gone hid
    refine ⟨fun {k ch} hget => ?_, m, hm.trans hle, hnm⟩
    rw [hch] at hget
    rcases get_of_insert hget with ⟨-, rfl⟩ | ⟨-, hget⟩
    · rintro rfl
      have := hnum.inj hnm
      omega
    · exact hgone hget
  · rw [hch] at hget
    rcases get_of_insert hget with ⟨-, rfl⟩ | ⟨-, hget⟩
    · exact ⟨ev, by simp, d, hd, rfl⟩
    · obtain ⟨ev', hmem, hrest⟩ := h.started hget
      exact ⟨ev', List.mem_append_left _ hmem, hrest⟩
  · rw [hclosed, hch]
    rcases List.mem_append.1 hev' with hev' | hev'
    · rcases h.kept ev' hev' d' hd' hpol with hend | ⟨ch, hget, hrest⟩
      · exact .inl hend
      · refine .inr ⟨ch, ?_, hrest⟩
        rw [get_insert, if_neg]
        · exact hget
        · intro he
          rw [← he, hnew] at hget
          cases hget
    · rw [List.mem_singleton.1 hev', hd] at hd'
      cases hd'
      exact .inr ⟨_, by rw [get_insert, if_pos rfl], rfl, rfl, rfl⟩

theorem Accounted.other (h : Accounted l s) (hs : s.work.Sound fl) (hr : Recorded x fl 0 s ev) (hc : ∀ d, ev.data ≠ .child d)
    (hf : ev.data.isForked = false) (hw : s'.work = s.work.step ev.data) (hle : s.n ≤ s'.n) : Accounted (l ++ [ev]) s' := by
  have hafter : ∀ {k : String} {ch}, s'.children[k]? = some ch ↔ s.children[k]? = some ch ∧ ev.data.keepsChild k ch = true := by
    intro k ch
    show s'.work.children[k]? = some ch ↔ _
    rw [hw]
    exact children_step hr.promise.offer hf hc
  have hperm := closed_snoc l ev
  refine ⟨?_, fun {id} hid => ?_, fun hget => ?_, fun ev' hev' d hd hpol => ?_⟩
  · refine hperm.nodup_iff.2 (List.nodup_append.2 ⟨h.nodup, hr.closes_nodup hs, fun a ha b hb he => ?_⟩)
    obtain ⟨k, ch, hget, hid, -⟩ := hr.closes hb
    exact (h.gone ha).1 hget (hid.trans he.symm)
  · rcases List.mem_append.1 (hperm.mem_iff.1 hid) with hid | hid
    · obtain ⟨hgone, m, hm, hnm⟩ := h.gone hid
      exact ⟨fun hget => hgone (hafter.1 hget).1, m, hm.trans hle, hnm⟩
    · obtain ⟨k, ch, hget, rfl, hclosed⟩ := hr.closes hid
      obtain ⟨m, hm, hnm⟩ := hs.child hget
      refine ⟨fun {k' ch'} hget' he => ?_, m, hm.trans hle, hnm⟩
      obtain ⟨hold, hkeeps⟩ := hafter.1 hget'
      obtain rfl := hs.distinct hold hget he
      cases hold.symm.trans hget
      rw [hclosed] at hkeeps
      cases hkeeps
  · obtain ⟨ev', hmem, hrest⟩ := h.started (hafter.1 hget).1
    exact ⟨ev', List.mem_append_left _ hmem, hrest⟩
  · have hev' : ev' ∈ l := by
      rcases List.mem_append.1 hev' with h' | h'
      · exact h'
      · rw [List.mem_singleton.1 h'] at hd
        exact absurd hd (hc d)
    rw [hperm.mem_iff, List.mem_append]
    rcases h.kept ev' hev' d hd hpol with hend | ⟨ch, hget, hid, how, hpo⟩
    · exact .inl (.inl hend)
    · by_cases hk : ev.data.keepsChild d.instanceKey ch = true
      · exact .inr ⟨ch, hafter.2 ⟨hget, hk⟩, hid, how, hpo⟩
      · refine .inl (.inr (List.mem_append.2 ?_))
        have hclose : ev.data.closesChild ch = true → d.childID ∈ ev.data.cancels := fun hcl =>
          hr.mem_cancels.2 ⟨_, ch, hget, hid, hpo ▸ hpol, hcl⟩
        have ho := hr.promise.offer
        cases hp : ev.data <;> rw [hp] at hk ho hclose <;> first | exact absurd rfl hk | skip
        case completed e => exact (ho.no_child hget).elim
        case failed e => exact .inr (hclose rfl)
        case cancelled e => exact .inr (hclose rfl)
        case join e => exact .inr (hclose (by simpa [Payload.keepsChild, Payload.closesChild] using hk))
        case mapAbort e => exact .inr (hclose (by simpa [Payload.keepsChild, Payload.closesChild] using hk))
        case childDone e =>
          obtain ⟨ch', hget', hid'⟩ := ho
          have hkey : e.instanceKey = d.instanceKey := by simpa [Payload.keepsChild] using hk
          rw [hkey] at hget'
          cases hget.symm.trans hget'
          exact .inl (by rw [← hid, hid']; exact List.mem_singleton_self _)

end

/-! ## The first decision and those after it -/

section
variable {x : Ext} {fl : Flow} {base : Nat} {s s' : State} {log log' : List (List Event)}

theorem Recorded.alike {ev : Event} (ha : s.Alike s') (h : Recorded x fl base s ev) : Recorded x fl base s' ev := by
  have hc : s.children = s'.children := show s.work.children = s'.work.children by rw [ha.work]
  have he : s.execID = s'.execID := show s.core.execID = s'.core.execID from congrArg State.execID ha
  refine ⟨h.promise.alike ha, ?_, ?_, h.forkless⟩
  · have hl := h.lists
    cases hd : ev.data <;> rw [hd] at hl <;> first | trivial | skip
    all_goals exact Eq.trans hl (by simp only [cancelChildren, hc])
  · have hn := h.named
    cases hd : ev.data <;> rw [hd] at hn <;> first | trivial | skip
    all_goals exact Eq.trans hn (by rw [he])

variable {evs : List Event} {p : Payload}

theorem Path.recorded {t : State} (h : s.Alike s')
    (hp : Path (State.apply x.quote fl) (Recorded x fl base) s evs t) :
    ∃ t', Path (State.apply x.quote fl) (Recorded x fl base) s' evs t' ∧ t.Alike t' :=
  Path.congr (fun h ht => h.apply ht) (fun h hG => hG.alike h) h hp

theorem mem_cancelChildren {inherited : List String} {id : String} : id ∈ cancelChildren s inherited ↔
    ∃ (k : String) (ch : ChildState), s.children[k]? = some ch ∧ ch.childID = id ∧ ch.policy ≠ .abandon ∧ id ∉ inherited := by
  simp only [cancelChildren, List.mem_map, List.mem_filter, Prod.exists, Std.ExtTreeMap.mem_toList_iff_getElem?_eq_some,
    Bool.and_eq_true, decide_eq_true_eq, Bool.not_eq_true', List.contains_eq_mem, decide_eq_false_iff_not]
  constructor
  · rintro ⟨k, ch, ⟨hget, hpol, hnew⟩, rfl⟩
    exact ⟨k, ch, hget, rfl, hpol, hnew⟩
  · rintro ⟨k, ch, hget, rfl, hpol, hnew⟩
    exact ⟨k, ch, ⟨hget, hpol, hnew⟩, rfl⟩

theorem Payload.Draws.lists {c : Ctx} (h : p.Draws c [] s) : p.Lists s := by
  cases p <;> first | exact h | trivial

theorem Payload.Draws.named {c : Ctx} {inherited : List String} (h : p.Draws c inherited s) : p.Named c.x s := by
  cases p <;> first | exact h | exact h.elim | trivial

theorem Payload.not_forked (h : p.ordinary = true) : p.isForked = false := by
  cases p <;> first | rfl | cases h

theorem Payload.uncontinued (h : p.ordinary = true) : p.isContinued = false := by
  cases p <;> first | rfl | cases h

/-- The decision to continue as new in state `s`. -/
def Request.Continues (req : Request) (s : State) (evs : List Event) : Prop :=
  ∃ seg cmdID ev, req = .continueAsNew seg cmdID ∧ evs = [ev] ∧
    ev.data = .continued ⟨({ s.encoded with segments := s.segments ++ [seg] } : State).marshal, seg⟩

/-- A decision on an execution that exists. -/
theorem perform_lists {req : Request} {now : Time} (hok : (req.perform x fl s now).result = .ok evs)
    (hex : s.exists = true) : req.Continues s evs ∨
    ∃ t, Path (State.apply x.quote fl) (fun s ev => ev.data.Lists s ∧ ev.data.Named x s ∧ ev.data.ordinary = true) s evs t := by
  have hself : Peer false fl s s := rfl
  have hdrafted : ∀ {c : Ctx} {o : Outcome}, c.x = x → c.fl = fl → o.Matches false c s o → o.result = .ok evs →
      ∃ t, Path (State.apply x.quote fl) (fun s ev => ev.data.Lists s ∧ ev.data.Named x s ∧ ev.data.ordinary = true) s evs t := by
    intro c o hx hfl hm hr
    subst hx hfl
    cases hm with
    | refused h _ => cases hr.symm.trans h
    | decided h _ _ hp _ =>
      cases hr.symm.trans h
      exact ⟨_, hp.mono fun _ _ hd => ⟨hd.draws.lists, hd.draws.named, hd.draws.ordinary⟩⟩
  cases req with
  | ask a =>
    cases a with
    | command cmd => exact .inr (hdrafted rfl rfl (decide_agrees x hself cmd now) hok)
    | fork src source seq cmdID writes =>
      simp only [Request.perform, Ask.decide, decideFork, hex, if_true] at hok
      cases hok
      exact .inr ⟨s, .nil s⟩
  | continueAsNew seg cmdID =>
    simp only [Request.perform] at hok
    by_cases hst : s.status.terminal = true
    · unfold Packtrail.continueAsNew at hok
      rw [if_pos (by simp [hst])] at hok
      cases hok
      exact .inr ⟨s, .nil s⟩
    · obtain ⟨ev, hd, -, hev⟩ := @continueAsNew_state x fl s hex (by simpa using hst) seg cmdID now
      rw [hev] at hok
      cases hok
      exact .inl ⟨seg, cmdID, ev, rfl, rfl, hd⟩
  | abort a decided cmdID reason msg =>
    simp only [Request.perform, hex, if_true] at hok
    split at hok
    · cases hok
    · cases hok
      exact .inr ⟨s, .nil s⟩
    · exact .inr (hdrafted rfl rfl (abort_agrees x hself cmdID reason msg now) hok)

theorem perform_recorded (wf : WellFormed fl) (hs : Settled fl base s) {req : Request} {now : Time}
    (hok : (req.perform x fl s now).result = .ok evs) (hne : evs ≠ []) :
    Path (State.apply x.quote fl) (Recorded x fl base) s evs (req.perform x fl s now).state := by
  obtain ⟨hp, -⟩ := (perform_settled (x := x) wf hs req now).wrote hok hne
  rcases perform_lists hok hs.exists with ⟨seg, cmdID, ev, -, rfl, hd⟩ | ⟨t, hl⟩
  · cases hp with
    | cons guard ok rest => exact .cons ⟨guard, by rw [hd]; trivial, by rw [hd]; trivial, by rw [hd]; rfl⟩ ok (rest.eq_of_nil ▸ .nil _)
  · exact (hp.and hl).mono fun _ _ h => ⟨h.1, h.2.1, h.2.2.1, Payload.not_forked h.2.2.2⟩

theorem Later.recorded (wf : WellFormed fl) (h : Later x fl s log s' log') (hs : Settled fl base s) :
    ∃ more t, log' = log ++ more ∧ Path (State.apply x.quote fl) (Recorded x fl base) s more.flatten t ∧ t.Alike s' := by
  induction h with
  | refl => exact ⟨[], s, by simp, .nil s, .refl s⟩
  | @step s₁ log₁ evs hl req now _ hok ih =>
    obtain ⟨more, t, rfl, hp, ha⟩ := ih
    have hs₁ := (hl.path wf hs).1
    by_cases hne : evs = []
    · subst hne
      rw [(perform_settled (x := x) wf hs₁ req now).unchanged hok]
      exact ⟨more, t, rfl, hp, ha⟩
    · obtain ⟨t', hp', ha'⟩ := Path.recorded ha.symm (perform_recorded wf hs₁ hok hne)
      refine ⟨more ++ [evs], t', ?_, ?_, ha'.symm⟩
      · rw [record, if_neg (by simpa using hne), List.append_assoc]
      · rw [List.flatten_append, List.flatten_singleton]
        exact hp.append hp'
  | reload _ ha ih =>
    obtain ⟨more, t, hl, hp, ht⟩ := ih
    exact ⟨more, t, hl, hp, ht.trans ha⟩

/-- A log is a first decision on an execution that does not exist yet, and what was decided after it. -/
theorem Reachable.first (wf : WellFormed fl) (h : Reachable x fl s log) (hne : log ≠ []) :
    ∃ execID s₀ req now evs, s₀.Absent ∧ (State.new execID).Alike s₀ ∧ Request.Sourced x fl req ∧
    (req.perform x fl s₀ now).result = .ok evs ∧ evs ≠ [] ∧ Later x fl (req.perform x fl s₀ now).state [evs] s log := by
  induction h with
  | new execID => exact absurd rfl hne
  | @step s log slog evs req now h hsrc hex hok ih _ =>
    have hsourced : req.Sourced x fl := fun src hs => ⟨hex src hs, slog, hsrc src hs⟩
    by_cases hlog : log = []
    · subst hlog
      by_cases he : evs = []
      · exact absurd (by simp [record, he]) hne
      · cases h.tracked wf with
        | absent _ habs hnew =>
          refine ⟨_, s, req, now, evs, habs, hnew, hsourced, hok, he, ?_⟩
          unfold record
          rw [if_neg (by simpa using he)]
          exact .refl
        | present hs hp ha => exact absurd rfl (flatten_ne_of_settled hs hp ha)
    · obtain ⟨execID, s₀, req₀, now₀, evs₀, habs, hnew, hs₀, hok₀, hne₀, hl⟩ := ih hlog
      exact ⟨execID, s₀, req₀, now₀, evs₀, habs, hnew, hs₀, hok₀, hne₀, hl.step req now hsourced hok⟩
  | reload _ ha ih =>
    obtain ⟨execID, s₀, req₀, now₀, evs₀, habs, hnew, hs₀, hok₀, hne₀, hl⟩ := ih hne
    exact ⟨execID, s₀, req₀, now₀, evs₀, habs, hnew, hs₀, hok₀, hne₀, hl.reload ha⟩

end

end Packtrail
