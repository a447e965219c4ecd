import Packtrail.Encoding

/-
# Deciding on a copy of a state

A decision looks at a state through its encoding: `Peer keep fl s s'` says that two states tell the
decider the same, whatever their details (the sequence they were stored under, the number of their
events, the segments and the base of a continuation). **`decide_agrees`**: on peers a command has the same outcome,
event by event.

The one exception is the last line of `complete0`, which hands out the last node's result as it is: an
absent result and a `null` one have the same encoding. `keep` says that the peers have the very same
results; without it, and for a flow that takes its output from there, events are compared with an
absent output and a `null` one identified (`Flow.strict`).

`Drafted` is what the events of a decision show of its writer: their index, time and command, and the
children that a failure or a cancellation lists.
-/

namespace Packtrail

open Emitter Replay

/-- Whether outputs are compared as they are. -/
def Flow.strict (fl : Flow) (keep : Bool) : Bool := keep || fl.hasOutput || !fl.channels.isEmpty

/-! ## Peers -/

def Details.blur (out : Bool) (v : Details) : Details :=
  ⟨0, if out then v.output else none, min v.events 1, 0, [], 0⟩

namespace State

/-- What a decision can tell of a state. -/
def bare (keep out : Bool) (s : State) : State := (s.trim keep).dress (s.details.blur out)

variable {keep out : Bool}

variable {s : State}

theorem bare_of_trim {s' : State} (h : s.trim keep = s'.trim keep) : s.bare keep out = s'.bare keep out := by
  have hd : s.details = s'.details := show (s.trim keep).details = (s'.trim keep).details by rw [h]
  rw [bare, bare, h, hd]

theorem bare_dress {v w : Details} (h : v.blur out = w.blur out) :
    (s.dress v).bare keep out = (s.dress w).bare keep out := by
  show (s.trim keep).dress (v.blur out) = (s.trim keep).dress (w.blur out)
  rw [h]

theorem blur_blur (v : Details) : (v.blur out).blur out = v.blur out := by
  cases out <;> simp [Details.blur]

theorem blur_output (v : Details) (o : Raw) : ({ v.blur out with output := o } : Details).blur out =
    ({ v with output := o } : Details).blur out := by
  simp [Details.blur]

/-- After an event, hiding the details before it makes no difference. -/
theorem bare_dressAfter {t : State} {quote : String → String} {fl : Flow} {ev : Event}
    (h : s.applyData quote fl ev = .ok t) : (dressAfter (s.details.blur out) ev.data t).bare keep out = t.bare keep out := by
  have hself := dressAfter_self h
  cases hp : ev.data <;> rw [hp] at hself
  case forked d => rfl
  case continued d => rfl
  case completed d =>
    conv_rhs => rw [← hself]
    exact bare_dress (blur_output s.details t.output)
  all_goals
    conv_rhs => rw [← hself]
    exact bare_dress (blur_blur s.details)

theorem applyData_bare (s : State) (quote : String → String) (fl : Flow) (ev : Event) :
    (s.applyData quote fl ev).map (bare keep out) = ((s.bare keep out).applyData quote fl ev).map (bare keep out) := by
  have htrim := @trim_applyData keep s quote fl ev
  rw [bare, applyData_dress]
  cases ht : (s.trim keep).applyData quote fl ev with
  | error e =>
    rw [ht] at htrim
    cases hs : s.applyData quote fl ev with
    | error e' => rw [hs] at htrim; exact htrim
    | ok t => rw [hs] at htrim; cases htrim
  | ok u =>
    rw [ht] at htrim
    cases hs : s.applyData quote fl ev with
    | error e' => rw [hs] at htrim; cases htrim
    | ok t =>
      rw [hs] at htrim
      have h : t.trim keep = u.trim keep := Except.ok.inj htrim
      exact congrArg Except.ok ((bare_of_trim h).trans (bare_dressAfter ht).symm)

theorem bare_finish (s : State) (ev : Event) : (s.finish ev).bare keep out = ((s.bare keep out).finish ev).bare keep out := by
  have hr : (s.bare keep out).recomputeStatus = s.recomputeStatus := by
    simp only [recomputeStatus, bare, dress, trim, encodeMaps_isEmpty]
    rfl
  have hn : min (s.events + 1) 1 = min (min s.events 1 + 1) 1 := by omega
  simp only [bare, dress, trim, details, Details.blur, finish, recode_recode, encodeAll_encodeAll, encodeMaps_encodeMaps, hn]
  refine congrArg₂ (fun st o => ({ s with
    results := recode keep s.results, signals := encodeAll s.signals, maps := encodeMaps s.maps
    status := st, lastSeq := 0, output := o, events := min (min s.events 1 + 1) 1, base := 0, segments := []
    updated := 0 } : State)) ?_ ?_
  · rw [← hr]; rfl
  · cases out <;> rfl

theorem env_bare (s : State) (t : Option Task) : (s.bare keep out).env t = s.env t := by
  have hmap : ∀ m : SMap Raw, (encodeAll m).map (fun _ r => Raw.encoded r) = m.map fun _ r => r.encoded := by
    intro m
    apply Std.ExtTreeMap.ext_getElem?
    intro a
    simp only [encodeAll, Std.ExtTreeMap.getElem?_map]
    cases m[a]? <;> rfl
  have hrecode : ∀ m : SMap Raw, (recode keep m).map (fun _ r => Raw.encoded r) = m.map fun _ r => r.encoded := by
    intro m
    cases keep
    · exact hmap m
    · rfl
  have hwith : ∀ (e : Env) (t : Task), (s.bare keep out).withTask e t = s.withTask e t := by
    intro e t
    simp only [withTask, bare, dress, trim, get_encodeMaps, Option.isSome_map]
  unfold env
  simp only [hwith]
  simp only [bare, dress, trim, hmap, hrecode]

end State

/-- States that tell a decision the same. -/
def Peer (keep : Bool) (fl : Flow) (s s' : State) : Prop :=
  s.bare keep (fl.strict keep) = s'.bare keep (fl.strict keep)

/-- The payload with a `null` output counted as absent, unless outputs are compared as they are. -/
def Payload.canon (strict : Bool) : Payload → Payload
  | .completed d => .completed { output := if !strict && isNull d.output then none else d.output }
  | p => p

/-- Events that differ at most in their index and, unless `strict`, in the presence of a null output. -/
structure Event.Same (strict : Bool) (ev ev' : Event) : Prop where
  time : ev.time = ev'.time
  cmdID : ev.cmdID = ev'.cmdID
  data : ev.data.canon strict = ev'.data.canon strict

/-- What a decision takes from the state for its payloads. -/
def Payload.Draws (c : Ctx) (inherited : List String) (s : State) : Payload → Prop
  | .failed d => d.cancelChildren = cancelChildren s inherited
  | .cancelled d => d.cancelChildren = cancelChildren s inherited
  | .started d => d.execID = s.execID
  | .child d => d.childID = childID c.x s.execID d.childN
  | .forked _ | .continued _ => False
  | _ => True

/-- Event `ev` as a decision with context `c` and inherited children `inherited` emits it in state `s`. -/
structure Drafted (c : Ctx) (inherited : List String) (s : State) (ev : Event) : Prop where
  event : ev = c.event ev.data s
  draws : ev.data.Draws c inherited s

/-! ## Programs that cannot tell peers apart -/

def Agrees {α : Type} (keep : Bool) (c : Ctx) (inherited : List String) (m m' : DecM α) (s s' : State) : Prop :=
  Agree c.apply (Peer keep c.fl) (Event.Same (c.fl.strict keep)) (Drafted c) inherited m m' s s'

def Steady {α : Type} (keep : Bool) (c : Ctx) (m : DecM α) : Prop :=
  ∀ inherited s s', Peer keep c.fl s s' → Agrees keep c inherited m m s s'

section
variable {keep : Bool} {c : Ctx} {s s' : State}

variable {p : Payload} {inherited : List String} {out : Bool}

theorem Ctx.apply_event (hp : p.ordinary = true) (s : State) :
    c.apply s (c.event p s) = (s.applyData c.x.quote c.fl (c.event p s)).map fun t => t.finish (c.event p s) := by
  have hi : (c.event p s).index = s.expectedIndex (c.event p s) := by cases p <;> first | rfl | cases hp
  unfold Ctx.apply State.apply
  rw [if_neg (by simp [hi])]

/-- Only the payload and the time of an ordinary event matter. -/
theorem Ctx.applyData_event (hp : p.ordinary = true) (u : State) :
    u.applyData c.x.quote c.fl (c.event p s) = u.applyData c.x.quote c.fl (c.event p s') := by
  cases p <;> first | rfl | cases hp

theorem Peer.applyData (hp : p.ordinary = true) (h : Peer keep c.fl s s') :
    (s.applyData c.x.quote c.fl (c.event p s)).map (State.bare keep (c.fl.strict keep)) =
    (s'.applyData c.x.quote c.fl (c.event p s')).map (State.bare keep (c.fl.strict keep)) := by
  have h : s.bare keep (c.fl.strict keep) = s'.bare keep (c.fl.strict keep) := h
  rw [State.applyData_bare s, h, c.applyData_event hp, ← State.applyData_bare]

theorem Peer.finish (h : Peer keep c.fl s s') (ev ev' : Event) (ht : ev.time = ev'.time) :
    Peer keep c.fl (s.finish ev) (s'.finish ev') := by
  have h : s.bare keep (c.fl.strict keep) = s'.bare keep (c.fl.strict keep) := h
  have hev : ∀ u : State, u.finish ev = u.finish ev' := fun u => by simp only [State.finish, ht]
  show (s.finish ev).bare _ _ = (s'.finish ev').bare _ _
  rw [State.bare_finish, h, hev, ← State.bare_finish]

theorem Peer.apply (hp : p.ordinary = true) (h : Peer keep c.fl s s') :
    (∃ e, c.apply s (c.event p s) = .error e ∧ c.apply s' (c.event p s') = .error e) ∨
    ∃ t t', c.apply s (c.event p s) = .ok t ∧ c.apply s' (c.event p s') = .ok t' ∧ Peer keep c.fl t t' := by
  have hd := h.applyData hp
  rw [c.apply_event hp, c.apply_event hp]
  cases hs : s.applyData c.x.quote c.fl (c.event p s) with
  | error e =>
    cases hs' : s'.applyData c.x.quote c.fl (c.event p s') with
    | error e' =>
      rw [hs, hs'] at hd
      cases hd
      exact .inl ⟨e, rfl, rfl⟩
    | ok t' => rw [hs, hs'] at hd; cases hd
  | ok t =>
    cases hs' : s'.applyData c.x.quote c.fl (c.event p s') with
    | error e' => rw [hs, hs'] at hd; cases hd
    | ok t' =>
      rw [hs, hs'] at hd
      have hb : Peer keep c.fl t t' := Except.ok.inj hd
      exact .inr ⟨_, _, rfl, rfl, hb.finish _ _ rfl⟩

theorem Drafted.of (h : p.Draws c inherited s) : Drafted c inherited s (c.event p s) :=
  ⟨rfl, h⟩

theorem Payload.Draws.ordinary (h : p.Draws c inherited s) : p.ordinary = true := by
  cases p <;> first | rfl | cases h

/-- Emitting what is drawn from the state. -/
theorem emit_agrees (h : Peer keep c.fl s s') (hp : p.Draws c inherited s) :
    Agrees keep c inherited (emit c p) (emit c p) s s' :=
  Agree.emit (h.apply hp.ordinary) ⟨rfl, rfl, rfl⟩ (.of hp)

/-- Completing with outputs that are not told apart. -/
theorem completed_agrees {o o' : Raw} (h : Peer keep c.fl s s')
    (ho : (if !c.fl.strict keep && isNull o then none else o) = if !c.fl.strict keep && isNull o' then none else o') :
    Agrees keep c inherited (emit c (.completed { output := o })) (emit c (.completed { output := o' })) s s' := by
  have happ : ∀ (u : State) (r : Raw), c.apply u (c.event (.completed ⟨r⟩) u) =
      .ok (State.finish { u.terminate .completed with output := r } (c.event (.completed ⟨r⟩) u)) := fun u r => c.apply_event rfl u
  refine Agree.emit (.inr ⟨_, _, happ s o, happ s' o', ?_⟩) ⟨rfl, rfl, congrArg (fun r => Payload.completed ⟨r⟩) ho⟩ (.of trivial)
  refine Peer.finish ?_ _ _ rfl
  have hterm : ∀ (u : State) (r : Raw), ({ u.terminate .completed with output := r } : State).bare keep (c.fl.strict keep) =
      { (u.bare keep (c.fl.strict keep)).terminate .completed with output := if c.fl.strict keep then r else none } := by
    intro u r
    simp only [State.bare, State.dress, State.trim, State.terminate, State.details, Details.blur, encodeMaps_empty]
  have hb : s.bare keep (c.fl.strict keep) = s'.bare keep (c.fl.strict keep) := h
  show State.bare _ _ _ = State.bare _ _ _
  rw [hterm, hterm, hb]
  cases hs : c.fl.strict keep with
  | false => rfl
  | true => rw [hs] at ho; simp only [Bool.not_true, Bool.false_and, Bool.false_eq_true, if_false] at ho; rw [ho]

namespace Steady

variable {α β : Type} {m : DecM α} {f : α → DecM β}

theorem pure (v : α) : Steady keep c (Pure.pure v : DecM α) := fun _ _ _ h => Agree.pure v h

theorem throw (e : Err) : Steady keep c (MonadExcept.throw e : DecM α) := fun _ _ _ _ => Agree.throw e

theorem bind (hm : Steady keep c m) (hf : ∀ v, Steady keep c (f v)) : Steady keep c (m >>= f) :=
  fun a s s' h => Agree.bind (hm a s s' h) fun v t t' ht => hf v a t t' ht

theorem ite {p : Prop} [Decidable p] {m' : DecM α} (hm : Steady keep c m) (hm' : Steady keep c m') :
    Steady keep c (if p then m else m') := by
  split
  · exact hm
  · exact hm'

theorem emit {p : Payload} (hp : ∀ a s, p.Draws c a s) : Steady keep c (emit c p) :=
  fun a s _ h => emit_agrees h (hp a s)

/-- Reading the state: what is done with it does not tell peers apart. -/
theorem readHere {f : State → DecM β} (hf : ∀ s, f (s.bare keep (c.fl.strict keep)) = f s)
    (h : ∀ a s s', Peer keep c.fl s s' → Agrees keep c a (f s) (f s) s s') : Steady keep c (getSt >>= f) := by
  intro a s s' hs
  have heq : f s' = f s := by
    rw [← hf s', ← hf s]
    exact congrArg f (Eq.symm hs)
  refine Agree.getSt ?_
  rw [heq]
  exact h a s s' hs

theorem read {f : State → DecM β} (hf : ∀ s, f (s.bare keep (c.fl.strict keep)) = f s) (h : ∀ s, Steady keep c (f s)) :
    Steady keep c (getSt >>= f) :=
  readHere hf fun a s s' hs => h s a s s' hs

end Steady

/-! ## The decider's programs, one by one -/

theorem Peer.children (h : Peer keep c.fl s s') : s.children = s'.children :=
  show (s.bare keep (c.fl.strict keep)).children = (s'.bare keep (c.fl.strict keep)).children from congrArg State.children h

theorem Peer.env (h : Peer keep c.fl s s') (t : Option Task) : s'.env t = s.env t := by
  have h : s.bare keep (c.fl.strict keep) = s'.bare keep (c.fl.strict keep) := h
  rw [← State.env_bare s, h, State.env_bare]

theorem fail_steady (reason msg node : String) : Steady keep c (fail c reason msg node) := by
  intro a s s' h
  have hc : cancelChildren s' a = cancelChildren s a := by simp only [cancelChildren, h.children]
  refine Agree.getSt (Agree.getAux ?_)
  rw [hc]
  exact emit_agrees h rfl

theorem cancel_steady (p : Cmd.CancelData) : Steady keep c (cancel c p) := by
  intro a s s' h
  have hc : cancelChildren s' a = cancelChildren s a := by simp only [cancelChildren, h.children]
  refine Agree.getSt (Agree.getAux ?_)
  rw [hc]
  exact emit_agrees h rfl

/-- Results with the same encoding differ at most in the presence of a null one. -/
theorem canon_of_encodeAll {m m' : SMap Raw} (h : encodeAll m = encodeAll m') (k : String) :
    (if isNull (m.getD k none) then none else m.getD k none) = if isNull (m'.getD k none) then none else m'.getD k none := by
  have hk : ((m[k]?).map fun r => some r.encoded) = (m'[k]?).map fun r => some (Raw.encoded r) := by
    have : (encodeAll m)[k]? = (encodeAll m')[k]? := by rw [h]
    simpa only [encodeAll, Std.ExtTreeMap.getElem?_map] using this
  simp only [Std.ExtTreeMap.getD_eq_getD_getElem?]
  cases hm : m[k]? with
  | none => cases hm' : m'[k]? with
    | none => rfl
    | some r' => rw [hm, hm'] at hk; cases hk
  | some r => cases hm' : m'[k]? with
    | none => rw [hm, hm'] at hk; cases hk
    | some r' =>
      rw [hm, hm'] at hk
      have he : r.encoded = r'.encoded := Option.some.inj (Option.some.inj hk)
      revert he
      cases r with
      | none => cases r' with
        | none => exact fun _ => rfl
        | some j' => intro he; cases j' <;> first | rfl | cases he
      | some j => cases r' with
        | none => intro he; cases j <;> first | rfl | cases he
        | some j' => intro he; cases he; rfl

theorem complete0_steady : Steady keep c (complete0 c) := by
  intro a s s' h
  refine Agree.getSt ?_
  have hch : s'.channels = s.channels :=
    show (s'.bare keep (c.fl.strict keep)).channels = (s.bare keep (c.fl.strict keep)).channels from
      congrArg State.channels (Eq.symm h)
  simp only [h.env, hch]
  split
  · split
    · exact fail_steady _ _ _ a s s' h
    · split
      · exact fail_steady _ _ _ a s s' h
      · split
        · exact emit_agrees h trivial
        · split
          · exact emit_agrees h trivial
          · exact fail_steady _ _ _ a s s' h
  · split
    · exact emit_agrees h trivial
    · rename_i hno hnc
      -- the output is the last node's result, as it is
      have hstrict : c.fl.strict keep = keep := by simp_all [Flow.strict]
      have hlast : s'.lastNode = s.lastNode :=
        show (s'.bare keep (c.fl.strict keep)).lastNode = (s.bare keep (c.fl.strict keep)).lastNode from
          congrArg State.lastNode (Eq.symm h)
      have hres : recode keep s.results = recode keep s'.results :=
        show (s.bare keep (c.fl.strict keep)).results = (s'.bare keep (c.fl.strict keep)).results from
          congrArg State.results h
      refine completed_agrees h ?_
      rw [hstrict, hlast]
      cases keep with
      | true => rw [show s.results = s'.results from hres]
      | false => exact canon_of_encodeAll hres s.lastNode

theorem timerAt_steady (p : TimerPurpose) (after : Int) (key node : String) (gen attempt : Nat) :
    Steady keep c (timerAt c p after key node gen attempt) :=
  .read (fun _ => rfl) fun _ => .emit fun _ _ => trivial

theorem schedule_steady (n : Node) (key owner : String) (index : Nat) (item : Raw) (rs : Resumption) (gen attempt : Nat) :
    Steady keep c (schedule c n key owner index item rs gen attempt) := by
  refine .read (fun _ => rfl) fun s => .bind (.emit fun _ _ => trivial) fun _ => ?_
  split
  · exact timerAt_steady _ _ _ _ _ _
  · exact .pure _

section
variable {k : String → DecM Unit} (hk : ∀ id, Steady keep c (k id))
include hk

theorem advance_steady (n : Node) (dyn : String) : Steady keep c (advance c k n dyn) := .ite complete0_steady (hk _)

end

theorem startChild_steady (n : Node) (key owner : String) (index : Nat) (item : Raw) :
    Steady keep c (startChild c n key owner index item) := by
  intro a s s' h
  refine Agree.getSt ?_
  have hn : s'.alloc = s.alloc :=
    show (s'.bare keep (c.fl.strict keep)).alloc = (s.bare keep (c.fl.strict keep)).alloc from congrArg State.alloc (Eq.symm h)
  have hid : s'.execID = s.execID :=
    show (s'.bare keep (c.fl.strict keep)).execID = (s.bare keep (c.fl.strict keep)).execID from
      congrArg State.execID (Eq.symm h)
  have hin : s'.input = s.input :=
    show (s'.bare keep (c.fl.strict keep)).input = (s.bare keep (c.fl.strict keep)).input from
      congrArg State.input (Eq.symm h)
  simp only [h.env, hn, hid, hin]
  split
  · exact fail_steady _ _ _ a s s' h
  · split
    · exact emit_agrees h rfl
    · exact fail_steady _ _ _ a s s' h

theorem State.maps_bare (s : State) (id : String) : (s.bare keep out).maps[id]? = (s.maps[id]?).map MapRun.encoded :=
  get_encodeMaps _ _

theorem mapLoop_steady (n : Node) (items : List Json) (limit : Int) (rounds : Nat) :
    Steady keep c (mapLoop c n items limit rounds) := by
  induction rounds with
  | zero => exact .pure _
  | succ rounds ih =>
    refine .read (fun s => ?_) fun s => ?_
    · simp only [State.maps_bare]
      cases s.maps[n.id]? <;> rfl
    · split
      · exact .throw _
      · refine .ite ?_ (.pure _)
        split
        · exact .pure _
        · have hrest : Steady keep c (do
              let s ← getSt
              if s.status.terminal then pure () else mapLoop c n items limit rounds) :=
            .read (fun _ => rfl) fun _ => .ite (.pure _) ih
          exact .ite (.bind (startChild_steady _ _ _ _ _) fun _ => hrest) (.bind (schedule_steady _ _ _ _ _ _ _ _) fun _ => hrest)

section
variable {k : String → DecM Unit} (hk : ∀ id, Steady keep c (k id))
include hk

theorem mapProgress_steady (n : Node) : Steady keep c (mapProgress c k n) := by
  refine .read (fun s => ?_) fun s => ?_
  · simp only [State.maps_bare]
    cases s.maps[n.id]? <;> rfl
  · split
    · exact .throw _
    · exact .ite (.bind (.emit fun _ _ => trivial) fun _ => advance_steady hk _ _) (mapLoop_steady _ _ _ _)

theorem mapStart_steady (n : Node) : Steady keep c (mapStart c k n) := by
  refine .read (fun s => by simp only [State.env_bare]) fun s => ?_
  split
  · exact fail_steady _ _ _
  · refine .ite (fail_steady _ _ _) ?_
    split
    · exact .throw _
    · exact .bind (.emit fun _ _ => trivial) fun _ => mapProgress_steady hk n

theorem consume_steady (n : Node) : Steady keep c (consume c k n) := by
  refine .read (fun _ => rfl) fun s => ?_
  split
  · exact .pure _
  · exact .bind (.emit fun _ _ => trivial) fun _ => advance_steady hk _ _

theorem await_steady (n : Node) : Steady keep c (await c k n) :=
  .read (fun _ => rfl) fun _ => .bind (.emit fun _ _ => trivial) fun _ => .bind (.emit fun _ _ => trivial) fun _ =>
    consume_steady hk n

theorem choose_steady (n : Node) : Steady keep c (choose c k n) := by
  refine .read (fun s => by simp only [State.env_bare]) fun s => ?_
  split
  · exact .bind (.emit fun _ _ => trivial) fun _ => .ite complete0_steady (hk _)
  · exact .bind (.emit fun _ _ => trivial) fun _ => fail_steady _ _ _
  · exact .throw _

end

theorem startBranches_steady (fan : String) (bs : List String) : Steady keep c (startBranches c fan bs) := by
  induction bs with
  | nil => exact .pure _
  | cons b bs ih =>
    refine .bind (.emit fun _ _ => trivial) fun _ => ?_
    split
    · exact .throw _
    · have hrest : Steady keep c (do
          let s ← getSt
          if s.status.terminal then pure () else startBranches c fan bs) :=
        .read (fun _ => rfl) fun _ => .ite (.pure _) ih
      exact .ite (.bind (startChild_steady _ _ _ _ _) fun _ => hrest) (.bind (schedule_steady _ _ _ _ _ _ _ _) fun _ => hrest)

theorem fanout_steady (n : Node) : Steady keep c (fanout c n) :=
  .bind (.emit fun _ _ => trivial) fun _ => startBranches_steady _ _

theorem enterStep_steady {k : String → DecM Unit} (hk : ∀ id, Steady keep c (k id)) (id : String) :
    Steady keep c (enterStep c k id) := by
  refine .read (fun _ => rfl) fun s => ?_
  split
  · exact fail_steady _ _ _
  · refine .ite (fail_steady _ _ _) (.bind (.emit fun _ _ => trivial) fun _ => ?_)
    split
    · exact schedule_steady _ _ _ _ _ _ _ _
    · exact choose_steady hk _
    · exact fanout_steady _
    · exact await_steady hk _
    · exact mapStart_steady hk _
    · exact startChild_steady _ _ _ _ _
    · exact fail_steady _ _ _
    · exact fail_steady _ _ _

theorem enterFuel_steady (f : Nat) (id : String) : Steady keep c (enterFuel c f id) := by
  induction f generalizing id with
  | zero => exact enterStep_steady (fun _ => .throw _) id
  | succ f ih => exact enterStep_steady ih id

theorem enter_steady (id : String) : Steady keep c (enter c id) := .read (fun _ => rfl) fun _ => enterFuel_steady _ _

/-! ### Settling -/

theorem cancelTasks_steady (owner reason : String) (keys : List String) : Steady keep c (cancelTasks c owner reason keys) := by
  induction keys with
  | nil => exact .pure _
  | cons key keys ih =>
    unfold cancelTasks
    refine .read (fun _ => rfl) fun s => ?_
    split
    · exact .throw _
    · exact .ite (.bind (.emit fun _ _ => trivial) fun _ => ih) ih

theorem joinOutput_bare (s : State) (succeeded : List String) :
    joinOutput (s.bare keep out) succeeded = joinOutput s succeeded := by
  have hget : ∀ b, Raw.encoded ((s.bare keep out).results.getD b none) = (s.results.getD b none).encoded := by
    intro b
    show Raw.encoded ((recode keep s.results).getD b none) = _
    cases keep with
    | true => rfl
    | false =>
      show Raw.encoded ((encodeAll s.results).getD b none) = _
      simp only [encodeAll, Std.ExtTreeMap.getD_eq_getD_getElem?, Std.ExtTreeMap.getElem?_map]
      cases s.results[b]? <;> rfl
  simp only [joinOutput, hget]

theorem closeJoin_steady (fan : String) (join : Node) (succeeded failed : List String) (ok : Bool) :
    Steady keep c (closeJoin c fan join succeeded failed ok) := by
  refine .read (fun _ => rfl) fun s => .bind (cancelTasks_steady _ _ _) fun _ => ?_
  refine .read (fun s => by simp only [joinOutput_bare]) fun s => ?_
  refine .bind (.emit fun _ _ => trivial) fun _ => .bind (.emit fun _ _ => trivial) fun _ => ?_
  exact .ite (advance_steady enter_steady _ _) (.ite (enter_steady _) (fail_steady _ _ _))

theorem evalJoin_steady (fan : String) : Steady keep c (evalJoin c fan) := by
  refine .read (fun _ => rfl) fun s => ?_
  split
  · exact .throw _
  · split
    · exact .throw _
    · simp only
      split
      · exact .pure _
      · exact closeJoin_steady _ _ _ _ _

theorem abortMap_steady (n : Node) (index : Nat) : Steady keep c (abortMap c n index) :=
  .read (fun _ => rfl) fun _ => .bind (cancelTasks_steady _ _ _) fun _ => .read (fun _ => rfl) fun _ =>
    .bind (.emit fun _ _ => trivial) fun _ => enter_steady _

theorem nodeOf_steady (id : String) : Steady keep c (nodeOf c id) := by
  unfold nodeOf
  split
  · exact .pure _
  · exact .throw _

theorem afterSettle_steady (t : Task) (n : Node) (dyn : String) : Steady keep c (afterSettle c t n dyn) := by
  refine .read (fun s => ?_) fun s => ?_
  · simp only [State.maps_bare, Option.isSome_map]
    rfl
  · exact .ite (.pure _) (.ite (evalJoin_steady _) (.ite (mapProgress_steady enter_steady _) (advance_steady enter_steady _ _)))

theorem taskFailed_steady (t : Task) (msg : String) (retryable : Bool) (reason : String) (usage : SMap Rat) :
    Steady keep c (taskFailed c t msg retryable reason usage) := by
  refine .bind (nodeOf_steady _) fun n => .read (fun _ => rfl) fun s => .bind (.emit fun _ _ => trivial) fun _ => ?_
  split
  · exact fail_steady _ _ _
  · refine .ite (.ite (schedule_steady _ _ _ _ _ _ _ _) (timerAt_steady _ _ _ _ _ _)) (.read (fun s => ?_) fun s => ?_)
    · simp only [State.maps_bare, Option.isSome_map]
      rfl
    · exact .ite (evalJoin_steady _) (.ite (.ite (abortMap_steady _ _) (enter_steady _)) (fail_steady _ _ _))

theorem checkWrites_bare (s : State) (ws : List (String × Json)) :
    checkWrites c.x c.fl (s.bare keep out) ws = checkWrites c.x c.fl s ws := by
  induction ws with
  | nil => rfl
  | cons w ws ih =>
    simp only [checkWrites, ih]
    rfl

theorem checkCompletion_bare (s : State) (n : Node) (t : Task) (output : Raw) (p : Cmd.CompleteData) :
    checkCompletion c (s.bare keep out) n t output p = checkCompletion c s n t output p := by
  simp only [checkCompletion, checkWrites_bare]

theorem complete_steady (p : Cmd.CompleteData) : Steady keep c (complete c p) := by
  refine .read (fun s => by simp only [checkCompletion_bare]; rfl) fun s => ?_
  split
  · exact .pure _
  · refine .bind (nodeOf_steady _) fun n => ?_
    simp only
    split
    · exact taskFailed_steady _ _ _ _ _
    · refine .bind (.emit fun _ _ => trivial) fun _ => .read (fun _ => rfl) fun s => ?_
      split
      · exact fail_steady _ _ _
      · exact afterSettle_steady _ _ _

theorem failTask_steady (p : Cmd.FailData) : Steady keep c (failTask c p) := by
  refine .read (fun _ => rfl) fun s => ?_
  split
  · exact .pure _
  · exact taskFailed_steady _ _ _ _ _

theorem interrupt_steady (p : Cmd.InterruptData) : Steady keep c (interrupt c p) := by
  refine .read (fun _ => rfl) fun s => ?_
  split
  · exact .pure _
  · refine .bind (.emit fun _ _ => trivial) fun _ => .read (fun _ => rfl) fun s => ?_
    split
    · exact fail_steady _ _ _
    · exact .pure _

theorem resume_steady (p : Cmd.ResumeData) : Steady keep c (resume c p) := by
  refine .read (fun _ => rfl) fun s => ?_
  split
  · exact .pure _
  · exact .bind (nodeOf_steady _) fun n => schedule_steady _ _ _ _ _ _ _ _

theorem signal_steady (p : Cmd.SignalData) : Steady keep c (signal c p) := by
  unfold signal
  split
  · exact .throw _
  · refine .read (fun _ => rfl) fun s => .ite (.pure _) (.bind (.emit fun _ _ => trivial) fun _ => ?_)
    refine .read (fun _ => rfl) fun s => ?_
    split
    · exact .pure _
    · exact .bind (nodeOf_steady _) fun n => consume_steady enter_steady _

theorem awaitTimeout_steady (tm : Timer) : Steady keep c (awaitTimeout c tm) := by
  refine .read (fun _ => rfl) fun s => ?_
  split
  · exact .pure _
  · refine .ite (.bind (nodeOf_steady _) fun n => .bind (.emit fun _ _ => trivial) fun _ => ?_) (.pure _)
    exact .ite (fail_steady _ _ _) (enter_steady _)

theorem timer_steady (p : Cmd.TimerData) : Steady keep c (timer c p) := by
  refine .read (fun _ => rfl) fun s => ?_
  split
  · exact .pure _
  · refine .bind (.emit fun _ _ => trivial) fun _ => .read (fun _ => rfl) fun s => ?_
    split
    · split
      · exact .pure _
      · exact .ite (.bind (nodeOf_steady _) fun n => schedule_steady _ _ _ _ _ _ _ _) (.pure _)
    · split
      · exact .pure _
      · exact taskFailed_steady _ _ _ _ _
    · exact awaitTimeout_steady _

theorem childDone_steady (p : Cmd.ChildDoneData) : Steady keep c (childDone c p) := by
  refine .read (fun _ => rfl) fun s => ?_
  split
  · exact .pure _
  · refine .bind (.emit fun _ _ => trivial) fun _ => .read (fun s => ?_) fun s => ?_
    · simp only [State.maps_bare, Option.isSome_map]
      rfl
    · split
      · exact fail_steady _ _ _
      · refine .bind (nodeOf_steady _) fun n => .ite (evalJoin_steady _) (.ite ?_ ?_)
        · exact .ite (mapProgress_steady enter_steady _) (.ite (abortMap_steady _ _) (fail_steady _ _ _))
        · exact .ite (advance_steady enter_steady _ _) (.ite (enter_steady _) (fail_steady _ _ _))

theorem update_steady (writes : SMap Json) : Steady keep c (update c writes) := by
  refine .read (fun s => by simp only [checkWrites_bare]; rfl) fun s => .ite (.throw _) (.ite (.pure _) ?_)
  split
  · exact .throw _
  · exact .emit fun _ _ => trivial

theorem State.exists_bare (s : State) : (s.bare keep out).exists = s.exists := by
  show Decidable.decide (0 < min s.events 1) = Decidable.decide (0 < s.events)
  rw [decide_eq_decide]
  omega

theorem start_steady (p : Cmd.StartData) : Steady keep c (start c p) := by
  refine .readHere (fun s => ?_) fun a s s' hs => ?_
  · simp only [State.exists_bare]
    rfl
  split
  · split
    · exact Steady.pure _ a s s' hs
    · exact Steady.throw _ a s s' hs
  · generalize (if isNull p.input then Json.obj [] else p.input.encoded) = input
    dsimp only
    split
    · split
      · exact Steady.throw _ a s s' hs
      · exact Agree.bind (emit_agrees hs rfl) fun _ t t' ht => enter_steady _ a t t' ht
    · exact Steady.throw _ a s s' hs

theorem decideData_steady (d : CmdData) : Steady keep c (decideData c d) := by
  cases d with
  | start p => exact start_steady p
  | complete p => exact complete_steady p
  | fail p => exact failTask_steady p
  | interrupt p => exact interrupt_steady p
  | resume p => exact resume_steady p
  | signal p => exact signal_steady p
  | cancel p => exact cancel_steady p
  | timer p => exact timer_steady p
  | childDone p => exact childDone_steady p
  | update writes => exact update_steady writes
  | undecodable t e => exact .throw _
  | operational t => exact .throw _

/-! ## Decisions -/

/-- The outcomes `o` from `s` and `o'` of the same request on a peer: the same error, or the same events. -/
inductive Outcome.Matches (keep : Bool) (c : Ctx) (s : State) (o o' : Outcome) : Prop
  | refused {e : Err} (h : o.result = .error e) (h' : o'.result = .error e)
  | decided {evs evs' : List Event} (h : o.result = .ok evs) (h' : o'.result = .ok evs')
      (same : List.Forall₂ (Event.Same (c.fl.strict keep)) evs evs')
      (path : Path c.apply (Drafted c []) s evs o.state) (peer : Peer keep c.fl o.state o'.state)

theorem Steady.outcome {m : DecM Unit} (hm : Steady keep c m) (h : Peer keep c.fl s s') :
    Outcome.Matches keep c s (runDecision m s) (runDecision m s') := by
  have hm := hm [] s s' h [] []
  unfold runDecision
  rcases hm.cases with ⟨e, d, d', hr, hr'⟩ | ⟨v, d, d', hr, hr', hst, -, -, evs, evs', ho, ho', hE, hp⟩
  · rw [hr, hr']
    exact .refused rfl rfl
  · rw [hr, hr']
    exact .decided (congrArg Except.ok ho) (congrArg Except.ok ho') hE hp hst

section
variable {fl : Flow}

theorem Peer.exists (h : Peer keep fl s s') : s'.exists = s.exists := by
  have h : s.bare keep (fl.strict keep) = s'.bare keep (fl.strict keep) := h
  rw [← State.exists_bare s, h, State.exists_bare]

theorem Peer.status (h : Peer keep fl s s') : s'.status = s.status :=
  show (s'.bare keep (fl.strict keep)).status = (s.bare keep (fl.strict keep)).status from congrArg State.status (Eq.symm h)

theorem Peer.execID (h : Peer keep fl s s') : s'.execID = s.execID :=
  show (s'.bare keep (fl.strict keep)).execID = (s.bare keep (fl.strict keep)).execID from congrArg State.execID (Eq.symm h)

end

/-- **A command is decided alike on peers.** -/
theorem decide_agrees (x : Ext) {fl : Flow} (h : Peer keep fl s s') (cmd : Command) (now : Time) :
    Outcome.Matches keep ⟨x, fl, now, cmd.id⟩ s (decide x fl s cmd now) (decide x fl s' cmd now) := by
  have hex : s'.exists = s.exists := h.exists
  have hst : s'.status = s.status := h.status
  have hid : s'.execID = s.execID := h.execID
  have hrun : Outcome.Matches keep ⟨x, fl, now, cmd.id⟩ s (runDecision (decideData ⟨x, fl, now, cmd.id⟩ cmd.data) s)
      (runDecision (decideData ⟨x, fl, now, cmd.id⟩ cmd.data) s') := Steady.outcome (decideData_steady cmd.data) h
  unfold decide
  simp only [hex, hst, hid]
  split
  · exact hrun
  · split
    · exact .refused rfl rfl
    · split
      · split
        · exact .refused rfl rfl
        · exact .decided rfl rfl .nil (.nil s) h
      · exact hrun

/-- The failure that replaces a decision of an existing execution is the same on peers. -/
theorem abort_agrees (x : Ext) {fl : Flow} (h : Peer keep fl s s') (cmdID reason msg : String) (now : Time) :
    Outcome.Matches keep ⟨x, fl, now, cmdID⟩ s (abort x fl s none cmdID reason msg now) (abort x fl s' none cmdID reason msg now) := by
  refine Steady.outcome ?_ h
  exact .read (fun s => by simp only [State.exists_bare]; rfl) fun s => .ite (.ite (.pure _) (fail_steady _ _ _)) (.throw _)

end

end Packtrail
