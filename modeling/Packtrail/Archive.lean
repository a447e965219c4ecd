import Packtrail.History

/-
# Archiving

`Engine.Archive` moves the live log of a finished execution into the object named after it and purges
the log; from then on `LoadArchived` and `History` answer for it. The object begins where the live log
began: with messages an earlier purge left in front of the last continuation, its first event may be one
that no state can be folded from, and `LoadArchived` looks at the segments only for sequences before it.

**`archive_preserves`**: the history reads the same, and the state does exactly when the object begins
with an event that bases a state, or the sequence asked for is older than the object.
-/

namespace Packtrail

open Replay

/-- `Engine.Archive` (`engine.go:719-764`), as far as reads go: an execution that is not finished is left
alone. -/
def Store.archive (x : Ext) (fl : Flow) (σ : Store) (execID : String) : Except LoadErr Store :=
  match σ.load x fl execID 0 with
  | .error e => .error e
  | .ok st =>
    if !st.exists || !st.status.terminal then .ok σ
    else .ok { live := [], objects := σ.objects.insert execID (readLog σ.live 1 0), snapshot := none }

theorem segmentObject_ne (execID : String) (first : Nat) : segmentObject execID first ≠ execID := by
  intro h
  have hlen := congrArg String.length h
  simp only [segmentObject, String.length_append] at hlen
  have : ".seg.".length = 5 := by decide
  omega

section
variable {x : Ext} {fl : Flow} {execID : String} {hist : List Message} {σ : Store} {s : State}

/-- The execution's own object is none of its segments. -/
theorem Archives.insert_own (wf : WellFormed fl) (hw : Written x fl execID hist) {objects : SMap (List Event)}
    (h : Archives x fl execID (eventsOf hist) objects) (evs : List Event) :
    Archives x fl execID (eventsOf hist) (objects.insert execID evs) := by
  intro pre ev post d s hl hd hs
  obtain ⟨first, hfirst⟩ := hw.names_segments wf ev (by rw [hl]; simp) d hd
  rw [get_insert, if_neg (by rw [hfirst]; exact (segmentObject_ne execID first).symm)]
  exact h pre ev post d s hl hd hs

/-- The live log of an execution that exists is not empty. -/
theorem Retains.live_ne {live : List Message} (h : Retains hist live) (hc : Chronicle (eventsOf hist) s) (hex : s.exists = true) :
    eventsOf live ≠ [] := by
  intro hnil
  obtain ⟨c, -, dropped, hsplit, -, hkeep⟩ := h.split hc
  have hd : dropped = [] := hkeep.resolve_right fun ⟨ev, hev, _⟩ => by rw [hnil] at hev; cases hev
  have hevents : s.events = 0 := by rw [hc.count, hsplit, hnil, hd]; rfl
  simp [State.exists, hevents] at hex

/-- The whole history, from the live log or from the object it was moved to. -/
theorem withSegments_full (wf : WellFormed fl) (hw : Written x fl execID hist) {live : List Message} (hret : Retains hist live)
    {objects : SMap (List Event)} (hobj : Archives x fl execID (eventsOf hist) objects) :
    withSegments objects (eventsOf live) = .ok (eventsOf hist) := by
  obtain ⟨b, s, hp, -⟩ := hw.path wf
  obtain ⟨c, -, dropped, hsplit, -, hkeep⟩ := hret.split (Path.chronicle hp)
  rw [hsplit] at hp hobj ⊢
  exact Path.withSegments hp hobj hkeep

/-- Folding what is left of a log: it has to begin with an event that bases a state. -/
theorem foldUpTo_live {base upTo : Nat} {dropped rest : List Event} {first : Event} {t send : State}
    (hp : Path (applySeq x fl) (Stored fl base) (State.new execID) (dropped ++ first :: rest) send)
    (ht : Path (applySeq x fl) (Stored fl base) (State.new execID) ((dropped ++ first :: rest).filter fun ev => within upTo ev.seq) t)
    (hin : within upTo first.seq = true) :
    foldUpTo x fl execID (first :: rest) upTo = if first.data.isBase then .ok t else .error (.startsWith first.data.type) := by
  simp only [foldUpTo, defOf]
  by_cases hb : first.data.isBase = true
  · simp only [hb, if_true]
    have hsorted := (List.pairwise_append.1 (Path.chronicle hp).sorted).2.1
    rw [takeWhile_eq_filter (f := Event.seq) (p := within upTo) (fun a b => within_mono) hsorted]
    rw [List.filter_append, List.filter_cons, if_pos hin] at ht
    rw [List.filter_cons, if_pos hin]
    exact foldSeq_ok (Path.from_base ht hb)
  · simp only [hb]
    rfl

/-- What is left once the live log `evs` was moved into the execution's own object. -/
def Store.moved (σ : Store) (execID : String) (evs : List Event) : Store :=
  { live := [], objects := σ.objects.insert execID evs, snapshot := none }

theorem Store.archived_moved (evs : List Event) : (σ.moved execID evs).archived execID = .ok evs := by
  have hget : (σ.objects.insert execID evs)[execID]? = some evs := by rw [get_insert, if_pos rfl]
  simp only [Store.archived, Store.moved, hget]

/-- The archive of a finished execution begins with the first event left of its log. -/
theorem Shows.archive (wf : WellFormed fl) (hw : Written x fl execID hist) (hσ : Shows x fl execID hist σ)
    (hs : foldOf x fl execID hist = .ok s) (hex : s.exists = true) (hterm : s.status.terminal = true) :
    ∃ first rest, eventsOf σ.live = first :: rest ∧ readLog σ.live 1 0 = first :: rest ∧
      σ.archive x fl execID = .ok (σ.moved execID (first :: rest)) := by
  obtain ⟨base, send, hp, -⟩ := hw.path wf
  cases hs.symm.trans hp.replay
  have hc := Path.chronicle hp
  obtain ⟨first, rest, hfirst⟩ := List.exists_cons_of_ne_nil (hσ.live.live_ne hc hex)
  have hread : readLog σ.live 1 0 = first :: rest := (hσ.live.read_all hc).trans hfirst
  refine ⟨first, rest, hfirst, hread, ?_⟩
  obtain ⟨s₀, t₀, hs₀, hload, hm, -⟩ := hσ.load wf hw 0
  have hall : (eventsOf hist).filter (fun ev => within 0 ev.seq) = eventsOf hist := List.filter_eq_self.2 fun ev _ => rfl
  rw [hall] at hs₀
  cases hp.replay.symm.trans hs₀
  have henc : t₀.encoded = s.encoded := congrArg Encoding.decoded hm
  have hdone : (!t₀.exists || !t₀.status.terminal) = false := by
    show (!t₀.encoded.exists || !t₀.encoded.status.terminal) = false
    rw [henc]
    show (!s.exists || !s.status.terminal) = false
    simp [hex, hterm]
  simp only [Store.archive, hload, hdone, hread]
  rfl

theorem Shows.history_moved (wf : WellFormed fl) (hw : Written x fl execID hist) (hσ : Shows x fl execID hist σ) {first : Event}
    {rest : List Event} (hfirst : eventsOf σ.live = first :: rest) :
    (σ.moved execID (first :: rest)).history execID = .ok (eventsOf hist) := by
  have hfull := withSegments_full wf hw hσ.live (hσ.objects.insert_own wf hw (first :: rest))
  rw [hfirst] at hfull
  simp only [Store.history, Store.archived_moved]
  exact hfull

/-- The state read from the archive. -/
theorem Shows.loadArchived (wf : WellFormed fl) (hw : Written x fl execID hist) (hσ : Shows x fl execID hist σ) {first : Event}
    {rest : List Event} (hfirst : eventsOf σ.live = first :: rest) {base upTo : Nat} {su : State}
    (hp : Path (applySeq x fl) (Stored fl base) (State.new execID) (eventsOf hist) s)
    (hsu : Path (applySeq x fl) (Stored fl base) (State.new execID) ((eventsOf hist).filter fun ev => within upTo ev.seq) su) :
    (σ.moved execID (first :: rest)).loadArchived x fl execID upTo =
      if first.data.isBase = true ∨ 0 < upTo ∧ upTo < first.seq then .ok su else .error (.startsWith first.data.type) := by
  have hfull := withSegments_full wf hw hσ.live (hσ.objects.insert_own wf hw (first :: rest))
  rw [hfirst] at hfull
  have hfull : withSegments (σ.moved execID (first :: rest)).objects (first :: rest) = .ok (eventsOf hist) := hfull
  simp only [Store.loadArchived, Store.archived_moved]
  by_cases hold : 0 < upTo ∧ upTo < first.seq
  · -- the sequence is older than the object: the segments are read
    simp only [hfull, foldUpTo_ok hp hsu.replay, hold, and_self, or_true, if_true]
  · simp only [if_neg hold]
    obtain ⟨c, -, dropped, hsplit, -⟩ := hσ.live.split (Path.chronicle hp)
    rw [hfirst] at hsplit
    rw [hsplit] at hp hsu
    have hin : within upTo first.seq = true := by
      simp only [within, Bool.or_eq_true, decide_eq_true_eq]
      omega
    rw [foldUpTo_live hp hsu hin]
    simp only [hold, or_false]

end

/-- **Archiving keeps the history, and the state when the object can be folded.** -/
theorem archive_preserves {x : Ext} {fl : Flow} (hv : validate x fl = []) {execID : String} {hist : List Message} {σ : Store}
    (hw : Written x fl execID hist) (hσ : Shows x fl execID hist σ) {s : State} (hs : foldOf x fl execID hist = .ok s)
    (hterm : s.status.terminal = true) :
    ∃ σ' first rest, σ.archive x fl execID = .ok σ' ∧ readLog σ.live 1 0 = first :: rest ∧
      σ.history execID = .ok (eventsOf hist) ∧ σ'.history execID = .ok (eventsOf hist) ∧
      ∀ upTo, (∃ t t', σ.load x fl execID upTo = .ok t ∧ σ'.loadArchived x fl execID upTo = .ok t' ∧ t'.marshal = t.marshal) ↔
        first.data.isBase = true ∨ 0 < upTo ∧ upTo < first.seq := by
  have wf := wellFormed_of_validate hv
  obtain ⟨base, send, hp, hset⟩ := hw.path wf
  cases hs.symm.trans hp.replay
  have hex : s.exists = true := by
    rcases hset with rfl | hset
    · cases hp
      cases hterm
    · exact hset.exists
  obtain ⟨first, rest, hfirst, hread, harchive⟩ := hσ.archive wf hw hs hex hterm
  have hfull := withSegments_full wf hw hσ.live hσ.objects
  rw [hfirst] at hfull
  refine ⟨_, first, rest, harchive, hread, ?_, hσ.history_moved wf hw hfirst, fun upTo => ?_⟩
  · unfold Store.history
    rw [hread]
    exact hfull
  · obtain ⟨su, hsu⟩ := Path.cut hp upTo
    obtain ⟨su', t, hsu', hloaded, hmu, -⟩ := hσ.load wf hw upTo
    cases hsu.replay.symm.trans hsu'
    rw [hσ.loadArchived wf hw hfirst hp hsu]
    constructor
    · rintro ⟨_, t', -, hok, -⟩
      split at hok
      · assumption
      · cases hok
    · intro h
      rw [if_pos h]
      exact ⟨t, su, hloaded, rfl, hmu.symm⟩

/-- A review that was signalled, continued as new and completed. -/
def nudge : Command := ⟨"signal-1", .signal { name := "nudge" }⟩

def nudgedMessage : Message := ⟨2, (decide plainExt oneTask startedFold nudge 2).events.map (Event.traced "")⟩

def nudgedFold : State := (foldOf plainExt oneTask "r1" [startedMessage, nudgedMessage]).toOption.getD (State.new "r1")

def nudgedSegment : Segment := (segmentOf "r1" (eventsOf [startedMessage, nudgedMessage])).get (by decide +kernel)

def resumedReview : Outcome := continueAsNew plainExt oneTask nudgedFold nudgedSegment "continue.r1.6" 3

def resumedMessage : Message := ⟨3, resumedReview.events.map (Event.traced "")⟩

def resumedFold : State :=
  (foldOf plainExt oneTask "r1" [startedMessage, nudgedMessage, resumedMessage]).toOption.getD (State.new "r1")

def finishedMessage : Message := ⟨4, (decide plainExt oneTask resumedFold completeDraft 4).events.map (Event.traced "")⟩

def finishedReview : List Message := [startedMessage, nudgedMessage] ++ [resumedMessage] ++ [finishedMessage]

def finishedFold : State := (foldOf plainExt oneTask "r1" finishedReview).toOption.getD (State.new "r1")

/-- What the signal and the continuation evaluate to. -/
theorem nudgedReview_evaluates :
    (decide plainExt oneTask startedFold nudge 2).result.isOk = true ∧ 0 < (decide plainExt oneTask startedFold nudge 2).events.length ∧
    (foldOf plainExt oneTask "r1" [startedMessage, nudgedMessage]).isOk = true ∧ nudgedFold.base = 0 ∧ nudgedFold.lastSeq < 3 ∧
    resumedReview.result.isOk = true ∧ 0 < resumedReview.events.length ∧
    (eventsOf [startedMessage, nudgedMessage]).any (fun ev => ev.data.isContinued) = false := by
  decide +kernel

/-- What the completion evaluates to. -/
theorem finishedReview_evaluates :
    (foldOf plainExt oneTask "r1" [startedMessage, nudgedMessage, resumedMessage]).isOk = true ∧ resumedFold.lastSeq < 4 ∧
    (decide plainExt oneTask resumedFold completeDraft 4).result.isOk = true ∧
    0 < (decide plainExt oneTask resumedFold completeDraft 4).events.length ∧
    (eventsOf [finishedMessage]).any (fun ev => ev.data.isContinued) = false := by
  decide +kernel

theorem nudgedFold_eq : foldOf plainExt oneTask "r1" [startedMessage, nudgedMessage] = .ok nudgedFold :=
  ok_of_isOk nudgedReview_evaluates.2.2.1 _

theorem nudgedReview_written : Written plainExt oneTask "r1" [startedMessage, nudgedMessage] := by
  obtain ⟨hok, hne, -⟩ := nudgedReview_evaluates
  exact .append startedReview_written startedFold_eq rfl (.ask (.command nudge)) 2 (Ask.sourced_command _ _ _) trivial
    (Outcome.result_events hok) (List.ne_nil_of_length_pos hne) continuedReview_evaluates.2.2.2.1 ""

theorem finishedReview_written : Written plainExt oneTask "r1" finishedReview := by
  obtain ⟨-, -, -, -, hseq, hok, hne, -⟩ := nudgedReview_evaluates
  have hresumed : Written plainExt oneTask "r1" ([startedMessage, nudgedMessage] ++ [resumedMessage]) :=
    .append nudgedReview_written nudgedFold_eq rfl (.continueAsNew nudgedSegment "continue.r1.6") 3
      (fun _ h => by cases h) (segmentOf_object (Option.some_get _).symm) (Outcome.result_events hok) (List.ne_nil_of_length_pos hne) hseq ""
  obtain ⟨hfold, hseq', hok', hne', -⟩ := finishedReview_evaluates
  exact .append hresumed (ok_of_isOk hfold _) rfl (.ask (.command completeDraft)) 4 (Ask.sourced_command _ _ _) trivial
    (Outcome.result_events hok') (List.ne_nil_of_length_pos hne') hseq' ""

/-- What purges up to sequence `c` leave. -/
def finishedStore (c : Nat) : Store :=
  { live := finishedReview.filter fun m => c < m.seq
    objects := single nudgedSegment.object (eventsOf [startedMessage, nudgedMessage]) }

theorem finishedStore_archives (c : Nat) : Archives plainExt oneTask "r1" (eventsOf finishedReview) (finishedStore c).objects := by
  obtain ⟨-, -, -, hbase, -, hok, hne, hnone⟩ := nudgedReview_evaluates
  obtain ⟨ev, d, hdec, hd, hseg⟩ := continueAsNew_decode (Outcome.result_events hok) (List.ne_nil_of_length_pos hne) 3 ""
  have hplain : Archives plainExt oneTask "r1" ([] ++ eventsOf [startedMessage, nudgedMessage]) (finishedStore c).objects :=
    Archives.append_plain Archives.nil hnone
  unfold finishedReview
  rw [eventsOf_append, eventsOf_append, eventsOf_singleton resumedMessage, show resumedMessage.decode = [ev] from hdec]
  refine (hplain.append_continued hd nudgedFold_eq ?_).append_plain finishedReview_evaluates.2.2.2.2
  rw [hseg]
  show _ = some ((eventsOf [startedMessage, nudgedMessage]).filter fun e => nudgedFold.base ≤ e.index)
  rw [hbase]
  simp [finishedStore]

theorem finishedStore_shows {c : Nat} (hc : (eventsOf (finishedStore c).live).any (fun ev => ev.data.isContinued) = true) :
    Shows plainExt oneTask "r1" finishedReview (finishedStore c) :=
  ⟨⟨c, rfl, .inr (List.any_eq_true.1 hc)⟩, finishedStore_archives c, fun _ h => by cases h⟩

theorem finishedStore_preserved :
    ∃ σ' first rest, (finishedStore 2).archive plainExt oneTask "r1" = .ok σ' ∧
      readLog (finishedStore 2).live 1 0 = first :: rest ∧
      (finishedStore 2).history "r1" = .ok (eventsOf finishedReview) ∧ σ'.history "r1" = .ok (eventsOf finishedReview) ∧
      ∀ upTo, (∃ t t', (finishedStore 2).load plainExt oneTask "r1" upTo = .ok t ∧
          σ'.loadArchived plainExt oneTask "r1" upTo = .ok t' ∧ t'.marshal = t.marshal) ↔
        first.data.isBase = true ∨ 0 < upTo ∧ upTo < first.seq :=
  archive_preserves oneTask_valid finishedReview_written (finishedStore_shows (by decide +kernel))
    (s := finishedFold) (ok_of_isOk (by decide +kernel) _) (by decide +kernel)

/-- A purge that stopped at the start of the execution left the signal in front of the continuation. -/
theorem leftover_archive_unreadable :
    validate plainExt oneTask = [] ∧ Written plainExt oneTask "r1" finishedReview ∧
    Shows plainExt oneTask "r1" finishedReview (finishedStore 1) ∧
    ((finishedStore 1).load plainExt oneTask "r1" 0).toOption.any (fun s => s.status.terminal) = true ∧
    ((finishedStore 1).archive plainExt oneTask "r1").toOption.any (fun σ' =>
      !(σ'.loadArchived plainExt oneTask "r1" 0).isOk && !(σ'.loadArchived plainExt oneTask "r1" 4).isOk) = true :=
  ⟨oneTask_valid, finishedReview_written, finishedStore_shows (by decide +kernel), by decide +kernel, by decide +kernel⟩

end Packtrail
