import Packtrail.SingleWriter

/-
# Commands that have nothing to do

An engine acknowledges a command that decides nothing without writing anything: no append tells it that its
state is out of date. The state cache is never told either. While another engine served the partition the
log went on, and the state an engine kept from before it lost the partition answers for the log when the
partition comes back (`stale_cache_loses_command`); after a delete and a new start it is not even a state of
the same execution.

**`no_command_lost`**: a command that is acknowledged from a state at the last sequence of the log has
nothing to do there.
-/

namespace Packtrail

open Replay Transition

/-- Deciding `a` on `s` comes to nothing. -/
def NothingToDo (c : Setup) (σ : Store) (s : State) (a : Ask) (now : Time) : Prop :=
  ∃ o, c.decide σ s a now = .ok o ∧ o.result = .ok []

theorem nothingToDo_iff {c : Setup} {σ : Store} {s : State} {a : Ask} {now : Time} :
    NothingToDo c σ s a now ↔ (c.decide σ s a now).toOption.any (fun o => o.result.toOption.any List.isEmpty) = true := by
  constructor
  · rintro ⟨o, ho, hres⟩
    rw [ho]
    show o.result.toOption.any List.isEmpty = true
    rw [hres]
    rfl
  · intro h
    cases ho : c.decide σ s a now with
    | error e => rw [ho] at h; cases h
    | ok o =>
      rw [ho] at h
      have h : o.result.toOption.any List.isEmpty = true := h
      cases hres : o.result with
      | error e => rw [hres] at h; cases h
      | ok evs =>
        rw [hres] at h
        exact ⟨o, ho, hres.trans (congrArg Except.ok (List.isEmpty_iff.1 h))⟩

instance (c : Setup) (σ : Store) (s : State) (a : Ask) (now : Time) : Decidable (NothingToDo c σ s a now) :=
  decidable_of_iff _ nothingToDo_iff.symm

/-- A command that is acknowledged as having nothing to do was decided at the last sequence of the log. -/
def AcksAtHead (c : Setup) (w : World) : Action → Prop
  | .decide i σ a now _ => ∀ st, (w.engines i).cache = some st → NothingToDo c σ st a now → st.lastSeq = w.lastSeq
  | _ => True

section
variable {c : Setup} {w w' : World}

theorem Setup.decide_exists {σ : Store} {s : State} (hex : s.exists = true) (a : Ask) (now : Time) :
    c.decide σ s a now = .ok (a.decide c.x c.fl s now) := by
  unfold Setup.decide
  split
  · rw [hex]
    rfl
  · rfl

/-- Two states that encode as the same fold. -/
theorem NothingToDo.of_marshal (wf : WellFormed c.fl) {hist : List Message} (hw : Written c.x c.fl c.execID hist) {st s : State}
    (hs : foldOf c.x c.fl c.execID hist = .ok s) (hm : st.marshal = s.marshal) {σ : Store} {a : Ask} {now : Time}
    (h : NothingToDo c σ st a now) : NothingToDo c σ s a now := by
  obtain ⟨o, ho, hres⟩ := h
  have hpeer : Peer false c.fl st s := .of_marshal hm
  cases hex : s.exists with
  | false =>
    have hst : st = s := (Folds.eq_new wf hw ⟨s, hs, hm⟩ (hpeer.exists.symm.trans hex)).trans
      (Folds.eq_new wf hw ⟨s, hs, rfl⟩ hex).symm
    exact ⟨o, hst ▸ ho, hres⟩
  | true =>
    rw [Setup.decide_exists (hpeer.exists.symm.trans hex)] at ho
    cases ho
    have hres : ((Request.ask a).perform c.x c.fl st now).result = .ok [] := hres
    obtain ⟨out, hout, hall⟩ := perform_follows wf hw hs hm hres
    cases hall
    exact ⟨_, Setup.decide_exists hex a now, hout⟩

theorem Run.sound_fresh (wf : WellFormed c.fl) {ok : World → Action → Prop} (hok : ∀ u act, ok u act → Reloads c (· = ·) u act)
    (h : Run (Step c World.Fresh) ok {} w) : w.Sound c True := by
  refine h.invariant .init fun u act u' hu ha hs => ?_
  exact hu.step wf (fun σ hσ st hst => ⟨_, List.prefix_refl _, hu.reads_fresh wf hσ hst⟩) ((hok u act ha).mono fun _ _ h => h.le)
    (fun _ => hok u act ha) (fun _ => trivial) hs

end

/-- **No command is lost** to a state that is at the last sequence of the log. -/
theorem no_command_lost {c : Setup} (hv : validate c.x c.fl = []) {w w' : World}
    (h : Run (Step c World.Fresh) (fun w act => Reloads c (· = ·) w act ∧ AcksAtHead c w act) {} w)
    {i : Nat} {σ : Store} {a : Ask} {now : Time} {trace : String} (hok : AcksAtHead c w (.decide i σ a now trace))
    (hs : Step c World.Fresh w (.decide i σ a now trace) w') {st : State} (hload : (w.engines i).load c σ = .ok st)
    (hack : NothingToDo c σ st a now) :
    ∃ s, foldOf c.x c.fl c.execID w.hist = .ok s ∧ NothingToDo c w.store s a now := by
  have wf := wellFormed_of_validate hv
  have hsound := Run.sound_fresh wf (fun _ _ h => h.1) h
  obtain rfl : σ = w.store := hs.view σ rfl
  have hf : Folds c.x c.fl c.execID w.hist st := by
    unfold Engine.load at hload
    cases hcache : (w.engines i).cache with
    | some st' =>
      rw [hcache] at hload
      cases hload
      have hq := hok st hcache hack
      rw [hsound.lastSeq wf] at hq
      exact ((hsound.engine i).cache st hcache).head hq
    | none =>
      rw [hcache] at hload
      exact hsound.reads_fresh wf rfl hload
  obtain ⟨s, hfold, hm⟩ := hf
  exact ⟨s, hfold, hack.of_marshal wf hsound.written hfold hm⟩

def triesSetup : Setup := ⟨plainExt, twoTries, "r1", 100, 0⟩

/-- Engine 0 starts the execution and keeps its state; then engine 1 has the partition. -/
def movePartition : List (World → Action) :=
  [fun u => .decide 0 u.store (.command startReview) 1 "", fun _ => .append 0 1 true, fun _ => .rest 0,
   fun u => .decide 1 u.store (.command failFirst) 3 "", fun _ => .append 1 2 true, fun _ => .rest 1,
   fun u => .decide 1 u.store (.command retryDraft) 4 "", fun _ => .append 1 3 true, fun _ => .rest 1]

def movedWorld : World := (exec (fun u act => World.step triesSetup u (act u)) {} movePartition).get (by decide +kernel)

theorem movedWorld_run : Run (Step triesSetup World.Fresh) (fun _ _ => True) {} movedWorld := by
  have hexec : exec (fun u act => World.step triesSetup u (act u)) {} movePartition = some movedWorld := (Option.some_get _).symm
  refine Run.of_exec .refl (fun act ha u u' hn => ⟨act u, trivial, ?_⟩) hexec
  simp only [movePartition, List.mem_cons, List.not_mem_nil, or_false] at ha
  rcases ha with rfl | rfl | rfl | rfl | rfl | rfl | rfl | rfl | rfl <;>
    exact ⟨fun σ h => (by cases h <;> rfl), fun a h src hsrc => (by cases h <;> cases hsrc), hn⟩

/-- The completion of the second attempt comes back to the engine that knows only the first. -/
theorem stale_cache_loses_command :
    validate triesSetup.x triesSetup.fl = [] ∧ Run (Step triesSetup World.Fresh) (fun _ _ => True) {} movedWorld ∧
    (∃ st, (movedWorld.engines 0).load triesSetup movedWorld.store = .ok st ∧
      NothingToDo triesSetup movedWorld.store st (.command completeSecond) 5) ∧
    ∀ s, foldOf triesSetup.x triesSetup.fl triesSetup.execID movedWorld.hist = .ok s →
      ¬NothingToDo triesSetup movedWorld.store s (.command completeSecond) 5 := by
  refine ⟨by decide +kernel, movedWorld_run, ⟨_, ok_of_isOk (by decide +kernel) (State.new "r1"), by decide +kernel⟩, fun s hs => ?_⟩
  have hfold := ok_of_isOk (r := foldOf triesSetup.x triesSetup.fl triesSetup.execID movedWorld.hist) (by decide +kernel) (State.new "r1")
  cases hs.symm.trans hfold
  decide +kernel

/-- The engine that started the execution, before and after its first append, and at rest. -/
def startingTries : World := (World.step triesSetup {} (.decide 0 {} (.command startReview) 1 "")).get (by decide +kernel)

def storedTries : World := (startingTries.step triesSetup (.append 0 1 true)).get (by decide +kernel)

def restingTries : World := (storedTries.step triesSetup (.rest 0)).get (by decide +kernel)

theorem restingTries_acks : ∃ s, foldOf plainExt twoTries "r1" restingTries.hist = .ok s ∧
    NothingToDo triesSetup restingTries.store s (.command completeSecond) 2 := by
  have hstarting : Run (Step triesSetup World.Fresh) (fun w act => Reloads triesSetup (· = ·) w act ∧ AcksAtHead triesSetup w act) {}
      startingTries := Run.refl.tail (a := .decide 0 {} (.command startReview) 1 "") ⟨trivial, fun st hst => by cases hst⟩
    ⟨fun σ h => (by cases h; rfl), fun a h src hsrc => (by cases h; cases hsrc), (Option.some_get _).symm⟩
  have hstored : Run _ _ {} storedTries := hstarting.tail (a := Action.append 0 1 true) ⟨trivial, trivial⟩
    ⟨fun σ h => (by cases h), fun a h => (by cases h), (Option.some_get _).symm⟩
  have hresting : Run _ _ {} restingTries := hstored.tail (a := Action.rest 0) ⟨trivial, trivial⟩
    ⟨fun σ h => (by cases h), fun a h => (by cases h), (Option.some_get _).symm⟩
  have hstep : Step triesSetup World.Fresh restingTries (.decide 0 restingTries.store (.command completeSecond) 2 "")
      ((restingTries.step triesSetup (.decide 0 restingTries.store (.command completeSecond) 2 "")).get (by decide +kernel)) :=
    ⟨fun σ h => (by cases h; rfl), fun a h src hsrc => (by cases h; cases hsrc), (Option.some_get _).symm⟩
  refine no_command_lost (by decide +kernel) hresting (fun st hst _ => ?_) hstep
    (ok_of_isOk (by decide +kernel) (State.new "r1")) (by decide +kernel)
  have hseq : (restingTries.engines 0).cache.all (fun st => st.lastSeq = restingTries.lastSeq) = true := by decide +kernel
  rw [hst] at hseq
  exact of_decide_eq_true hseq

end Packtrail
