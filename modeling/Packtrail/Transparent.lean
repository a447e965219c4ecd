import Packtrail.Agreement
import Packtrail.Decisions

/-
# Snapshots and continuations

A state goes through JSON when it is cloned, stored as a snapshot or carried by a continuation
(`Copy`). What is decided on the copy is what is decided on the state itself, one index higher after a
continuation (**`copies_decide_alike`**), as long as no absent result is at stake: a task that completes
without an output leaves an absent result, the copy holds `null` in its place, and an execution whose
output is its last node's result completes with an output it should not have
(`absent_output_becomes_null`).
-/

namespace Packtrail

open Replay Emitter

/-- Copies of `s`: a clone or a snapshot (`Clone`, `Snapshots.Maybe`), and the state after a
continuation as new. -/
inductive Copy (x : Ext) (fl : Flow) (s : State) : State → Prop
  | clone : Copy x fl s (unmarshal s.marshal)
  | continued (seg : Segment) (cmdID : String) (now : Time) : Copy x fl s (continueAsNew x fl s seg cmdID now).state

/-- Decide commands one after the other; a refused one leaves the state as it was. -/
def decideAll (x : Ext) (fl : Flow) : State → List (Command × Time) → List (Except Err (List Event)) × State
  | s, [] => ([], s)
  | s, (cmd, now) :: cmds =>
    let o := decide x fl s cmd now
    let r := decideAll x fl (if o.result.isOk then o.state else s) cmds
    (o.result :: r.1, r.2)

/-- The same event, `k` events later in its log. -/
def Event.Shifted (k : Nat) (ev ev' : Event) : Prop := ev' = { ev with index := ev.index + k }

inductive SameAnswer (k : Nat) : Except Err (List Event) → Except Err (List Event) → Prop
  | refused (e : Err) : SameAnswer k (.error e) (.error e)
  | decided {evs evs' : List Event} (h : List.Forall₂ (Event.Shifted k) evs evs') : SameAnswer k (.ok evs) (.ok evs')

/-! ## Indexes -/

section
variable {c : Ctx} {s s' t t' : State} {inherited : List String}

variable {ev : Event} {k : Nat}

theorem State.applyData_events {quote : String → String} {fl : Flow} (hp : ev.data.ordinary = true)
    (h : s.applyData quote fl ev = .ok t) : t.events = s.events := by
  have hself := State.dressAfter_self h
  cases hd : ev.data <;> rw [hd] at hself hp <;> first | cases hp; done | exact (congrArg State.events hself).symm

theorem Drafted.events (hd : Drafted c inherited s ev) (h : c.apply s ev = .ok t) :
    ev.index = s.events + 1 ∧ t.events = s.events + 1 := by
  have ho := hd.draws.ordinary
  obtain ⟨-, s₁, hs₁, rfl⟩ := State.apply_ok.1 h
  refine ⟨?_, congrArg (· + 1) (State.applyData_events ho hs₁)⟩
  rw [hd.event]
  exact c.event_index _ s (by cases hp : ev.data <;> rw [hp] at ho <;> first | rfl | cases ho)

theorem Payload.canon_true (p : Payload) : p.canon true = p := by
  cases p <;> rfl

/-- The same event, `k` events later, with the presence of a null output told apart if `strict`. -/
structure Event.Follows (strict : Bool) (k : Nat) (ev ev' : Event) : Prop where
  data : ev.data.canon strict = ev'.data.canon strict
  rest : ev' = { ev with index := ev.index + k, data := ev'.data }

theorem Event.Follows.shifted {ev' : Event} (h : ev.Follows true k ev') : ev.Shifted k ev' := by
  have hdata : ev.data = ev'.data := by rw [← ev.data.canon_true, h.data, ev'.data.canon_true]
  have hrest := h.rest
  rw [← hdata] at hrest
  exact hrest

/-- A draft is determined by its payload and its index. -/
theorem Drafted.follows {strict : Bool} {ev' : Event} (hd : Drafted c inherited s ev) (hd' : Drafted c inherited s' ev')
    (hdata : ev.data.canon strict = ev'.data.canon strict) (hi : ev'.index = ev.index + k) : ev.Follows strict k ev' := by
  refine ⟨hdata, ?_⟩
  have h := hd.event
  have h' := hd'.event
  cases ev
  cases ev'
  simp only [Ctx.event, Event.mk.injEq] at h h' hi ⊢
  obtain ⟨rfl, -, rfl, -, rfl, rfl, rfl⟩ := h
  obtain ⟨rfl, -, rfl, -, rfl, rfl, rfl⟩ := h'
  exact ⟨rfl, hi, rfl, trivial, rfl, rfl, rfl⟩

/-- Two drafts of the same events, from states that are `k` events apart. -/
theorem Path.follows {strict : Bool} {evs evs' : List Event} (hp : Path c.apply (Drafted c inherited) s evs t)
    (hp' : Path c.apply (Drafted c inherited) s' evs' t') (hs : List.Forall₂ (Event.Same strict) evs evs')
    (hk : s'.events = s.events + k) : List.Forall₂ (Event.Follows strict k) evs evs' ∧ t'.events = t.events + k := by
  induction hp generalizing s' evs' with
  | nil s =>
    cases hs
    rw [hp'.eq_of_nil]
    exact ⟨.nil, hk⟩
  | @cons s s₁ t ev rest guard ok _ ih =>
    cases hs with
    | @cons _ ev' _ rest' hsame hrest =>
      cases hp' with
      | @cons _ s₁' _ _ _ guard' ok' hp' =>
        obtain ⟨hi, he⟩ := guard.events ok
        obtain ⟨hi', he'⟩ := guard'.events ok'
        obtain ⟨hrest, ht⟩ := ih hp' hrest (by omega)
        exact ⟨.cons (guard.follows guard' hsame.data (by omega)) hrest, ht⟩

end

/-! ## Copies are peers -/

/-- No result at stake is absent: the output is not taken from the results, or none of them is absent. -/
def NoAbsentResult (fl : Flow) (s : State) : Prop :=
  fl.hasOutput = true ∨ fl.channels.isEmpty = false ∨ ∀ k : String, s.results[k]? ≠ some none

theorem encodeAll_present {m : SMap Raw} (h : ∀ k : String, m[k]? ≠ some none) : encodeAll m = m := by
  apply Std.ExtTreeMap.ext_getElem?
  intro k
  rw [encodeAll, Std.ExtTreeMap.getElem?_map]
  have hk := h k
  cases hm : m[k]? with
  | none => rfl
  | some r => cases r with
    | none => exact absurd hm hk
    | some j => rfl

/-- How two copies are compared: as they are, in either case. -/
theorem NoAbsentResult.strict {fl : Flow} {s : State} (h : NoAbsentResult fl s) :
    ∃ keep, fl.strict keep = true ∧ recode keep (encodeAll s.results) = recode keep s.results := by
  rcases h with h | h | h
  · exact ⟨false, by simp [Flow.strict, h], encodeAll_encodeAll _⟩
  · exact ⟨false, by simp [Flow.strict, h], encodeAll_encodeAll _⟩
  · exact ⟨true, by simp [Flow.strict], encodeAll_present h⟩

namespace State

variable {keep out : Bool} {s : State}

theorem bare_encoded (h : recode keep (encodeAll s.results) = recode keep s.results) :
    s.encoded.bare keep out = s.bare keep out := by
  refine bare_of_trim ?_
  show ({ s with results := recode keep (encodeAll s.results), signals := encodeAll (encodeAll s.signals)
                 maps := encodeMaps (encodeMaps s.maps) } : State) = _
  rw [h, encodeAll_encodeAll, encodeMaps_encodeMaps]
  rfl

/-- The status of an unfinished execution is what is open says. -/
def StatusFits (s : State) : Prop := s.status.terminal = true ∨ s.status = .unset ∨ s.status = s.recomputeStatus

theorem apply_statusFits {quote : String → String} {fl : Flow} {ev : Event} {t : State} (h : s.apply quote fl ev = .ok t) :
    t.StatusFits := by
  obtain ⟨-, s₁, -, rfl⟩ := apply_ok.1 h
  unfold StatusFits
  simp only [finish]
  by_cases hs : (s₁.status.terminal || s₁.status = .unset) = true
  · rw [if_pos hs]
    simp only [Bool.or_eq_true, decide_eq_true_eq] at hs
    exact hs.imp_right .inl
  · rw [if_neg hs]
    exact .inr (.inr rfl)

theorem Alike.statusFits {s' : State} (ha : s.Alike s') (h : s.StatusFits) : s'.StatusFits := by
  have hr : ∀ u : State, u.core.recomputeStatus = u.recomputeStatus := by
    intro u
    simp only [recomputeStatus, core, forget, ← trim_false, trim, encodeMaps_isEmpty]
    rfl
  have hcore : s.core = s'.core := ha
  unfold StatusFits at h ⊢
  rwa [← hr s', ← hcore, hr s, ← ha.status]

end State

theorem Reachable.statusFits {x : Ext} {fl : Flow} {s : State} {log : List (List Event)} (wf : WellFormed fl)
    (h : Reachable x fl s log) : s.StatusFits := by
  cases h.tracked wf with
  | absent _ habs _ => exact .inr (.inl habs.status)
  | present _ hp ha =>
    exact State.Alike.statusFits ha (hp.invariant (fun _ _ _ _ _ happ => State.apply_statusFits happ) (.inr (.inl rfl)))

theorem runDecision_emit {c : Ctx} {p : Payload} {s t : State} (h : c.apply s (c.event p s) = .ok t) :
    runDecision (emit c p) s = ⟨.ok [c.event p s], t⟩ := by
  simp only [runDecision, emit, emitWith, h]
  rfl

/-- The state after a continuation: a decoded copy with one more segment and one more event. -/
theorem continueAsNew_state {x : Ext} {fl : Flow} {s : State} (hex : s.exists = true) (hst : s.status.terminal = false)
    (seg : Segment) (cmdID : String) (now : Time) :
    ∃ ev : Event, ev.data = .continued ⟨({ s.encoded with segments := s.segments ++ [seg] } : State).marshal, seg⟩ ∧
      ev = Ctx.event ⟨x, fl, now, cmdID⟩ ev.data s ∧ continueAsNew x fl s seg cmdID now =
        ⟨.ok [ev], State.finish { s.encoded with segments := s.segments ++ [seg], base := s.events + 1 } ev⟩ := by
  have hidem : ({ s.encoded with segments := s.segments ++ [seg] } : State).encoded =
      { s.encoded with segments := s.segments ++ [seg] } := by
    rw [show ({ s.encoded with segments := s.segments ++ [seg] } : State).encoded =
      { s.encoded.encoded with segments := s.segments ++ [seg] } from rfl, State.encoded_encoded]
  unfold continueAsNew
  rw [if_neg (by simp [hex, hst])]
  refine ⟨_, rfl, rfl, runDecision_emit (State.apply_ok.2 ⟨.inr rfl, _, ?_, rfl⟩)⟩
  exact congrArg (fun u : State => Except.ok { u with base := s.events + 1 }) hidem

theorem Copy.peer {x : Ext} {fl : Flow} {s s' : State} {log : List (List Event)} {keep : Bool} (wf : WellFormed fl)
    (h : Reachable x fl s log) (hc : Copy x fl s s') (hr : recode keep (encodeAll s.results) = recode keep s.results) :
    Peer keep fl s s' ∧ ∃ k ≤ 1, s'.events = s.events + k := by
  have henc : s.encoded.bare keep (fl.strict keep) = s.bare keep (fl.strict keep) := State.bare_encoded hr
  cases hc with
  | clone => exact ⟨Eq.symm henc, 0, by omega, rfl⟩
  | continued seg cmdID now =>
    by_cases hlive : (!s.exists || s.status.terminal) = true
    · have : (continueAsNew x fl s seg cmdID now).state = s := by
        unfold continueAsNew
        rw [if_pos hlive]
      rw [this]
      exact ⟨rfl, 0, by omega, rfl⟩
    · simp only [Bool.or_eq_true, Bool.not_eq_true', not_or, Bool.not_eq_false, Bool.not_eq_true] at hlive
      obtain ⟨ev, -, -, hev⟩ := @continueAsNew_state x fl s hlive.1 hlive.2 seg cmdID now
      rw [hev]
      refine ⟨?_, 1, le_rfl, rfl⟩
      have hb : 0 < s.events := by simpa [State.exists] using hlive.1
      -- the status is computed again, with the same result
      have hstatus : (State.finish { s.encoded with segments := s.segments ++ [seg], base := s.events + 1 } ev).status =
          s.status := by
        have hfit := h.statusFits wf
        simp only [State.finish]
        show (if (s.status.terminal || s.status = .unset) = true then s.status else s.encoded.recomputeStatus) = s.status
        split
        · rfl
        · rename_i hs
          simp only [Bool.or_eq_true, decide_eq_true_eq, not_or] at hs
          have := (hfit.resolve_left hs.1).resolve_left hs.2
          rw [this]
          simp only [State.recomputeStatus, ← State.trim_false, State.trim, encodeMaps_isEmpty]
          rfl
      have hdress : State.finish { s.encoded with segments := s.segments ++ [seg], base := s.events + 1 } ev =
          s.encoded.dress ⟨s.lastSeq, s.output, s.events + 1, s.events + 1, s.segments ++ [seg],
            if ev.time = 0 then s.updated else ev.time⟩ := by
        show ({ s.encoded with
          segments := s.segments ++ [seg], base := s.events + 1, events := s.events + 1
          updated := if ev.time = 0 then s.updated else ev.time
          status := (State.finish { s.encoded with segments := s.segments ++ [seg], base := s.events + 1 } ev).status } : State) = _
        rw [hstatus]
        rfl
      show s.bare keep (fl.strict keep) = State.bare keep (fl.strict keep) (State.finish _ ev)
      rw [← henc, hdress]
      have hmin : min s.events 1 = min (s.events + 1) 1 := by omega
      show (s.encoded.dress s.details).bare keep (fl.strict keep) = _
      exact State.bare_dress (by simp only [Details.blur, State.details, hmin])

/-! ## Whole sequences of commands -/

theorem decideAll_peers {x : Ext} {fl : Flow} {keep : Bool} {k : Nat} {s s' : State} (hk : fl.strict keep = true)
    (h : Peer keep fl s s') (he : s'.events = s.events + k) (cmds : List (Command × Time)) :
    List.Forall₂ (SameAnswer k) (decideAll x fl s cmds).1 (decideAll x fl s' cmds).1 ∧
      (decideAll x fl s cmds).2.output = (decideAll x fl s' cmds).2.output := by
  induction cmds generalizing s s' with
  | nil =>
    have hout : ∀ u : State, (u.bare keep (fl.strict keep)).output = u.output := by
      intro u
      simp only [State.bare, State.dress, Details.blur, State.details, hk, if_true]
    refine ⟨.nil, ?_⟩
    show s.output = s'.output
    rw [← hout s, ← hout s']
    exact congrArg State.output h
  | cons cn cmds ih =>
    obtain ⟨cmd, now⟩ := cn
    -- the draft on the copy is a draft of its own
    have hpeer' : Peer keep fl s' s' := rfl
    have hself := decide_agrees x hpeer' cmd now
    cases decide_agrees x h cmd now with
    | refused hr hr' =>
      simp only [decideAll, hr, hr']
      obtain ⟨hrest, hout⟩ := ih h he
      exact ⟨.cons (.refused _) hrest, hout⟩
    | decided hr hr' hsame hp hpeer =>
      cases hself with
      | refused hr₂ _ => rw [hr'] at hr₂; cases hr₂
      | decided hr₂ _ _ hp' _ =>
        cases hr'.symm.trans hr₂
        obtain ⟨hfollows, he'⟩ := Path.follows hp hp' (hk ▸ hsame) he
        have hshift := hfollows.imp fun _ _ h => h.shifted
        simp only [decideAll, hr, hr']
        obtain ⟨hrest, hout⟩ := ih hpeer he'
        exact ⟨.cons (.decided hshift) hrest, hout⟩

/-- **Copies decide alike**: the same answers to every sequence of commands, one index later after a
continuation, and the same output at the end. -/
theorem copies_decide_alike {x : Ext} {fl : Flow} (hv : validate x fl = []) {s s' : State} {log : List (List Event)}
    (h : Reachable x fl s log) (hc : Copy x fl s s') (hr : NoAbsentResult fl s) (cmds : List (Command × Time)) :
    ∃ k ≤ 1, s'.events = s.events + k ∧
      List.Forall₂ (SameAnswer k) (decideAll x fl s cmds).1 (decideAll x fl s' cmds).1 ∧
      (decideAll x fl s cmds).2.output = (decideAll x fl s' cmds).2.output := by
  obtain ⟨keep, hstrict, hrecode⟩ := hr.strict
  obtain ⟨hp, k, hk, he⟩ := hc.peer (wellFormed_of_validate hv) h hrecode
  obtain ⟨hsame, hout⟩ := decideAll_peers hstrict hp he cmds
  exact ⟨k, hk, he, hsame, hout⟩

/-- A task, then an await whose timeout ends the execution. -/
def draftAndHold : Flow :=
  { version := "1", name := "review"
    nodes :=
      [{ id := "draft", type := .task, kind := "write", next := "hold" },
       { id := "hold", type := .await, signal := "go", timeout := 60, onTimeout := "pick" },
       { id := "pick", type := .choice, rules := [{ default := true, toNode := endTarget }] }] }

def startedDraft : Outcome := decide plainExt draftAndHold (State.new "r1") startReview 1

/-- The task completed without an output and the await is open. -/
def heldDraft : Outcome := decide plainExt draftAndHold startedDraft.state completeDraft 2

def holdTimeout : Command := ⟨"timer-1", .timer ⟨"t2"⟩⟩

theorem heldDraft_reachable :
    Reachable plainExt draftAndHold heldDraft.state (record (record [] startedDraft.events) heldDraft.events) :=
  ((Reachable.new "r1").command startReview 1 (by decide +kernel)).command completeDraft 2 (by decide +kernel)

/-- An execution that completes without an output completes with `null` on a copy of its state. -/
theorem absent_output_becomes_null :
    validate plainExt draftAndHold = [] ∧
    Reachable plainExt draftAndHold heldDraft.state (record (record [] startedDraft.events) heldDraft.events) ∧
    (decideAll plainExt draftAndHold heldDraft.state [(holdTimeout, 3)]).2.status = .completed ∧
    (decideAll plainExt draftAndHold heldDraft.state [(holdTimeout, 3)]).2.output.isNone = true ∧
    (decideAll plainExt draftAndHold (unmarshal heldDraft.state.marshal) [(holdTimeout, 3)]).2.output.isSome = true :=
  ⟨by decide +kernel, heldDraft_reachable, by decide +kernel, by decide +kernel, by decide +kernel⟩

theorem startedDraft_copies : ∃ k ≤ 1, (unmarshal startedDraft.state.marshal).events = startedDraft.state.events + k ∧
    List.Forall₂ (SameAnswer k) (decideAll plainExt draftAndHold startedDraft.state [(completeDraft, 2), (holdTimeout, 3)]).1
      (decideAll plainExt draftAndHold (unmarshal startedDraft.state.marshal) [(completeDraft, 2), (holdTimeout, 3)]).1 ∧
    (decideAll plainExt draftAndHold startedDraft.state [(completeDraft, 2), (holdTimeout, 3)]).2.output =
      (decideAll plainExt draftAndHold (unmarshal startedDraft.state.marshal) [(completeDraft, 2), (holdTimeout, 3)]).2.output := by
  refine copies_decide_alike (x := plainExt) (by decide +kernel) ((Reachable.new "r1").command startReview 1 (by decide +kernel))
    .clone (.inr (.inr fun k hk => ?_)) _
  have hempty : startedDraft.state.results = ∅ := by
    rw [Std.ExtTreeMap.eq_empty_iff_size_eq_zero]
    decide +kernel
  change startedDraft.state.results[k]? = _ at hk
  rw [hempty, get_empty] at hk
  cases hk

end Packtrail
