import Packtrail.Dispatchers
import Packtrail.Index
import Packtrail.Transparent
import Packtrail.Lib.Follow

/-
# The index follows the log

Once the effects of a decision have run, the dispatcher writes the execution's index (`IndexFrom`): the summary, the keys of
its flow and attributes when it is new, and its status key, which moves from the status before the decision to the one
after it. Every key is a write of its own. A write that fails leaves the rest undone; the decision is delivered again and
all of it is written again. A quarantined execution is skipped, closed by its terminal event (`SetTerminal`), and indexed
again from the mark on by a replay.

| here | there |
| --- | --- |
| `applyDecision`            | `applyDecision`, as far as the index goes (`internal/dispatch/dispatch.go:192-232`) |
| `closeWith`, `stateBeforeMark`, `closingState` | `closeWith`, `stateBeforeMark`, `closeQuarantined` (`internal/dispatch/quarantine.go:221-293`) |
| `replayFrom`, `Catalog.replay` | `replayFrom`, `Replay` (`quarantine.go:299-355`) |
| `Catalog.process` to `close` | the ways `handle` deals with a decision (`dispatch.go:108-162`, `quarantine.go:125-207`) |

Dispatchers and replays take turns here, an operation at a time; each may stop after any of its writes. Decisions are
delivered in order. `reached` counts the decisions something has been written for. **`index_exact`**: an operation that makes all
its writes leaves one status key, that of the state it goes up to, and the same status in the summary. The exception is a
decision that a replay has been past (`replayed_index_goes_back`).
-/

namespace Packtrail

open Replay Transition Follow

/-! ## The states of a history -/

/-- The state after the first `j` decisions. -/
def stateAt (c : Setup) (hist : List Message) (j : Nat) : State :=
  match foldOf c.x c.fl c.execID (hist.take j) with
  | .ok s => s
  | .error _ => State.new c.execID

abbrev statusAt (c : Setup) (hist : List Message) (j : Nat) : Status := (stateAt c hist j).status

section
variable {x : Ext} {fl : Flow} {base : Nat} {s t : State} {ev : Event} {execID : String} {l : List Event}

theorem State.recomputeStatus_encoded (s : State) : s.encoded.recomputeStatus = s.recomputeStatus := by
  simp only [State.recomputeStatus, ← State.trim_false, State.trim, encodeMaps_isEmpty]
  rfl

theorem Path.statusFits (hp : Path (applySeq x fl) (Stored fl base) (State.new execID) l s) : s.StatusFits := by
  refine hp.invariant (fun s ev t _ _ ok => ?_) (.inr (.inl rfl))
  obtain ⟨u, hu, rfl⟩ := applySeq_ok.1 ok
  have hfits := State.apply_statusFits hu
  exact hfits

/-- A continuation keeps the status. -/
theorem Stored.continued_status (guard : Stored fl base s ev) {d : Event.Continued} (hd : ev.data = .continued d) (hfits : s.StatusFits)
    (h : applySeq x fl s ev = .ok t) : t.status = s.status := by
  obtain ⟨u, hu, rfl⟩ := applySeq_ok.1 h
  obtain ⟨-, s₁, hs₁, rfl⟩ := State.apply_ok.1 hu
  unfold State.applyData at hs₁
  rw [hd] at hs₁
  cases hs₁
  have hun := guard.promise.unended
  show (State.finish _ ev).status = s.status
  simp only [State.finish]
  rw [guard.carried d hd]
  show (if (s.status.terminal || s.status = .unset) = true then s.status else s.encoded.encoded.recomputeStatus) = s.status
  split
  · rfl
  · rename_i hs
    simp only [Bool.or_eq_true, decide_eq_true_eq, not_or] at hs
    rw [State.encoded_encoded, State.recomputeStatus_encoded]
    exact ((hfits.resolve_left hs.1).resolve_left hs.2).symm

/-- The status a terminal event ends with. -/
def Payload.outcome : Payload → Status
  | .completed _ => .completed
  | .failed _ => .failed
  | .cancelled _ => .cancelled
  | _ => .unset

theorem applySeq_outcome (ht : ev.data.terminal = true) (h : applySeq x fl s ev = .ok t) : t.status = ev.data.outcome := by
  obtain ⟨u, hu, rfl⟩ := applySeq_ok.1 h
  obtain ⟨-, s₁, hs₁, rfl⟩ := State.apply_ok.1 hu
  unfold State.applyData at hs₁
  cases hd : ev.data <;> rw [hd] at ht hs₁ <;> first | cases ht; done | skip
  all_goals
    cases hs₁
    rfl

/-- Nothing is stored after a terminal event. -/
theorem Path.outcome {before after : List Event} (hp : Path (applySeq x fl) (Stored fl base) s (before ++ ev :: after) t)
    (ht : ev.data.terminal = true) : after = [] ∧ t.status = ev.data.outcome := by
  obtain ⟨s₁, -, hrest⟩ := hp.split
  cases hrest with
  | @cons _ s₂ _ _ _ guard ok rest =>
    have hout := applySeq_outcome ht ok
    cases rest with
    | nil => exact ⟨rfl, hout⟩
    | cons guard' _ _ =>
      have := guard'.promise.unended
      rw [hout] at this
      cases hd : ev.data <;> rw [hd] at ht this <;> cases ht <;> cases this

/-- Nothing is stored after an execution has ended. -/
theorem Path.unended (hp : Path (applySeq x fl) (Stored fl base) s l t) (hl : l ≠ []) : s.status.terminal = false := by
  cases hp with
  | nil => exact absurd rfl hl
  | cons guard _ _ => exact guard.promise.unended

variable {hist pre post : List Message} {m : Message} {evs : List Event}

/-- A continuation is a decision of its own. -/
theorem Written.continued_single (wf : WellFormed fl) (hw : Written x fl execID (pre ++ m :: post)) (hdec : m.decode = ev :: evs)
    (hcont : ev.data.isContinued = true) : evs = [] := by
  have hsplit : pre ++ m :: post = (pre ++ [m]) ++ post := by simp
  rw [hsplit] at hw
  have hw := hw.of_prefix (List.prefix_append _ _)
  generalize hl : pre ++ [m] = l at hw
  cases hw with
  | nil => simp at hl
  | @append _ s s' evs' seq h hs hm req now hsrc hseg hok hne hseq trace =>
    obtain ⟨rfl, hmsg⟩ := List.append_inj' hl rfl
    cases hmsg
    obtain ⟨b, s₀, hp, hset⟩ := h.path wf
    cases hs.symm.trans hp.replay
    obtain ⟨_, -, -, -, hkind⟩ := next_decided wf (Path.ready hp hset hm) hsrc hok hne
    have hlen := (Message.stamps seq trace evs').length_eq
    rw [hdec] at hlen
    rcases hkind with ⟨seg, cmdID, e', rfl, rfl, hdata⟩ | hplain
    · simpa using hlen
    · have hmem : ev ∈ Message.decode ⟨seq, evs'.map (Event.traced trace)⟩ := by rw [hdec]; exact List.mem_cons_self
      obtain ⟨e, he, hst⟩ := Message.mem_decode hmem
      rw [hst.data, hplain e he] at hcont
      cases hcont

end

section
variable {c : Setup} {hist : List Message} {m : Message} {ev : Event} {j : Nat}

theorem stateAt_append (l : List Message) (hj : j ≤ hist.length) : stateAt c (hist ++ l) j = stateAt c hist j := by
  unfold stateAt
  rw [List.take_append_of_le_length hj]

theorem Written.take_ne_nil (hj : j < hist.length) : hist.take (j + 1) ≠ [] := by
  intro h
  have := congrArg List.length h
  rw [List.length_take, List.length_nil] at this
  omega

theorem hist_split (hm : hist[j]? = some m) : hist = hist.take j ++ m :: hist.drop (j + 1) := by
  obtain ⟨hj, rfl⟩ := List.getElem?_eq_some_iff.1 hm
  simp

theorem take_succ_of_getElem? (hm : hist[j]? = some m) : hist.take (j + 1) = hist.take j ++ [m] := by
  rw [List.take_add_one, hm]
  rfl

variable (wf : WellFormed c.fl) (hw : Written c.x c.fl c.execID hist)

include wf hw

theorem Written.fold_stateAt (j : Nat) :
    foldOf c.x c.fl c.execID (hist.take j) = .ok (stateAt c hist j) := by
  obtain ⟨b, s, hp, -⟩ := (hw.of_prefix (List.take_prefix j hist)).path wf
  have hs : foldOf c.x c.fl c.execID (hist.take j) = .ok s := hp.replay
  unfold stateAt
  rw [hs]

theorem Written.stateAt_set (hj : j < hist.length) :
    (stateAt c hist (j + 1)).exists = true ∧ statusAt c hist (j + 1) ≠ .unset :=
  (hw.of_prefix (List.take_prefix _ _)).begun wf (Written.take_ne_nil hj) (hw.fold_stateAt wf _)

/-- A decision leads from one state to the next. -/
theorem Written.stateAt_path (hm : hist[j]? = some m) :
    ∃ b, Path (applySeq c.x c.fl) (Stored c.fl b) (State.new c.execID) (eventsOf (hist.take j)) (stateAt c hist j) ∧
      Path (applySeq c.x c.fl) (Stored c.fl b) (stateAt c hist j) m.decode (stateAt c hist (j + 1)) := by
  obtain ⟨b, s, hp, -⟩ := (hw.of_prefix (List.take_prefix (j + 1) hist)).path wf
  have hs : foldOf c.x c.fl c.execID (hist.take (j + 1)) = .ok s := hp.replay
  cases hs.symm.trans (hw.fold_stateAt wf (j + 1))
  rw [take_succ_of_getElem? hm, eventsOf_append, eventsOf_singleton] at hp
  obtain ⟨s₀, hpre, hrest⟩ := hp.split
  have hs₀ : foldOf c.x c.fl c.execID (hist.take j) = .ok s₀ := hpre.replay
  cases hs₀.symm.trans (hw.fold_stateAt wf j)
  exact ⟨b, hpre, hrest⟩

theorem Written.continued_status (hm : hist[j]? = some m) {evs : List Event}
    (hdec : m.decode = ev :: evs) (hcont : ev.data.isContinued = true) :
    statusAt c hist (j + 1) = statusAt c hist j := by
  obtain ⟨b, hpre, hp⟩ := hw.stateAt_path wf hm
  have hw' := hw
  rw [hist_split hm] at hw'
  obtain rfl := hw'.continued_single wf hdec hcont
  rw [hdec] at hp
  cases hp with
  | cons guard ok rest =>
    obtain rfl := rest.eq_of_nil
    cases hd : ev.data <;> rw [hd] at hcont <;> first | cases hcont; done | skip
    exact guard.continued_status hd (Path.statusFits hpre) ok

/-- A terminal event ends its history with its status. -/
theorem Written.outcome (hm : hist[j]? = some m) (hev : ev ∈ m.decode)
    (ht : ev.data.terminal = true) : statusAt c hist (j + 1) = ev.data.outcome ∧
      statusAt c hist (j + 1) ≠ statusAt c hist j := by
  obtain ⟨b, hpre, hp⟩ := hw.stateAt_path wf hm
  obtain ⟨before, after, hsplit⟩ := List.append_of_mem hev
  rw [hsplit] at hp
  have hout := (Path.outcome hp ht).2
  refine ⟨hout, fun hsame => ?_⟩
  -- the state before the decision has not ended
  have hun : (statusAt c hist j).terminal = false := Path.unended hp (by simp)
  rw [← hsame, show statusAt c hist (j + 1) = _ from hout] at hun
  cases hd : ev.data <;> rw [hd] at ht hun <;> cases ht <;> cases hun

end

/-! ## What a decision writes -/

/-- How the dispatch of a decision ends. -/
inductive Applied
  | failed
  /-- The execution was archived meanwhile. -/
  | gone
  | indexed (st : State) (writes : List IndexWrite)

section
variable (c : Setup) (attrHash : String → String)

def applyDecision (cache : Option State) (σ : Store) (m : Message) : Applied :=
  match m.decode with
  | [] => .failed
  | ev :: evs =>
    match stateBefore c cache σ ev with
    | .error _ => .failed
    | .ok none => .gone
    | .ok (some st) =>
      match replay (applySeq c.x c.fl) st (ev :: evs) with
      | .error _ => .failed
      | .ok t => .indexed t (indexFrom attrHash t (!st.exists) st.status)

/-- The writes of the decisions of a scan, one after the other, the state cached at their end, and whether all could be applied. -/
def replayFrom (σ : Store) : Option State → List Message → List IndexWrite × Option State × Bool
  | cache, [] => ([], cache, true)
  | cache, m :: ms =>
    match applyDecision c attrHash cache σ m with
    | .failed => ([], none, false)
    | .gone => replayFrom σ cache ms
    | .indexed t ws => (ws ++ (replayFrom σ (some t) ms).1, (replayFrom σ (some t) ms).2)

/-- The state folded up to the mark, if there is one. -/
def stateBeforeMark (σ : Store) (mark : Option QuarantineMark) : Option State :=
  match mark with
  | none => none
  | some mk =>
    if mk.seq ≤ 1 then none
    else match σ.load c.x c.fl c.execID (mk.seq - 1) with
      | .ok st => if st.exists then some st else none
      | .error _ => none

/-- What is known of an execution that cannot be folded: its parent and its flow, from the first event. -/
def closingState (σ : Store) (mark : Option QuarantineMark) : State :=
  match stateBeforeMark c σ mark with
  | some st => st
  | none =>
    match (readLog σ.live 1 0).head?.map Event.data with
    | some (.started d) => { State.new c.execID with parent := d.parent, flow := d.flow }
    | some (.forked d) => { State.new c.execID with parent := (unmarshal d.state).parent, flow := (unmarshal d.state).flow }
    | _ => State.new c.execID

/-- What the terminal event says over what was known. -/
def closeWith (st : State) (ev : Event) : State :=
  match ev.data with
  | .completed d => { st with status := .completed, output := d.output }
  | .failed d => { st with status := .failed, error := d.error, reason := d.reason }
  | .cancelled d => { st with status := .cancelled, reason := d.reason }
  | _ => st

def closeWrites (σ : Store) (ix : Index) (ev : Event) : List IndexWrite :=
  let st := closeWith (closingState c σ ix.mark) ev
  setTerminal ix st.status st.reason st.error ev.time

end

/-- Whether a decision is indexed as one of a new execution, and the status it comes from: after its first decision an
execution is new only to a dispatcher that has nothing cached before a continuation. -/
def Comes (c : Setup) (hist : List Message) (j : Nat) (created : Bool) (prev : Status) : Prop :=
  created = false ∧ j ≠ 0 ∧ prev = statusAt c hist j ∨
    created = true ∧ (j = 0 ∨ statusAt c hist (j + 1) = statusAt c hist j)

section
variable {c : Setup} {attrHash : String → String} {w : World} {j : Nat} {m : Message}

/-- What is written of the status: nothing, its key in place of the one before, or just its key. -/
theorem Comes.statusWrites {hist : List Message} {created : Bool} {prev : Status} (h : Comes c hist j created prev) :
    let ws := Packtrail.statusWrites created prev (statusAt c hist (j + 1))
    ws = [] ∧ statusAt c hist (j + 1) = statusAt c hist j ∨
      ws = [.put (.status (statusAt c hist (j + 1))), .erase (.status (statusAt c hist j))] ∧ statusAt c hist (j + 1) ≠ statusAt c hist j ∨
      ws = [.put (.status (statusAt c hist (j + 1)))] ∧ (j = 0 ∨ statusAt c hist (j + 1) = statusAt c hist j) := by
  unfold Packtrail.statusWrites
  rcases h with ⟨rfl, -, rfl⟩ | ⟨rfl, hstill⟩
  · by_cases hsame : statusAt c hist j = statusAt c hist (j + 1)
    · exact .inl ⟨by simp [hsame], hsame.symm⟩
    · exact .inr (.inl ⟨by simp [hsame], Ne.symm hsame⟩)
  · exact .inr (.inr ⟨rfl, hstill⟩)

theorem indexFrom_of_marshal {s t : State} (h : s.marshal = t.marshal) (created : Bool) (prev : Status) :
    indexFrom attrHash s created prev = indexFrom attrHash t created prev := by
  have henc : s.encoded = t.encoded := congrArg Encoding.decoded h
  show indexFrom attrHash s.encoded created prev = indexFrom attrHash t.encoded created prev
  rw [henc]

variable (attrHash) in
/-- **What a dispatcher writes for a decision**, whatever it has cached. -/
theorem World.Single.applyDecision (wf : WellFormed c.fl) (h : w.Single c) (hm : w.hist[j]? = some m) {cache : Option State}
    (hcache : ∀ st, cache = some st → c.Past w.hist st) :
    ∃ t created prev, Packtrail.applyDecision c attrHash cache w.store m =
        .indexed t (indexFrom attrHash (stateAt c w.hist (j + 1)) created prev) ∧
      Folds c.x c.fl c.execID (w.hist.take (j + 1)) t ∧ Comes c w.hist j created prev := by
  have hw := h.written
  have hsplit := hist_split hm
  have hw' := hw
  rw [hsplit] at hw'
  obtain ⟨ev, evs, hdec⟩ := List.exists_cons_of_ne_nil hw'.decode_ne
  obtain ⟨st, hst, hstands⟩ := h.stateBefore wf hsplit hdec hcache
  have hall : m.decode = [] ++ (ev :: evs) := hdec
  obtain ⟨t, ht, hfold⟩ := (Stands.begin hdec hstands).replay wf hw' hall
  rw [← take_succ_of_getElem? hm] at hfold
  have hmarshal : t.marshal = (stateAt c w.hist (j + 1)).marshal := by
    obtain ⟨s, hs, hms⟩ := hfold
    cases hs.symm.trans (hw.fold_stateAt wf (j + 1))
    exact hms
  refine ⟨t, !st.exists, st.status, ?_, hfold, ?_⟩
  · unfold Packtrail.applyDecision
    simp only [hdec, hst, ht]
    rw [indexFrom_of_marshal hmarshal]
  · rcases hstands with ⟨hcont, rfl⟩ | ⟨s, hs, hms⟩
    · exact .inr ⟨rfl, .inr (hw.continued_status wf hm hdec hcont)⟩
    · cases hs.symm.trans (hw.fold_stateAt wf j)
      have henc : st.encoded = (stateAt c w.hist j).encoded := congrArg Encoding.decoded hms
      have hstatus : st.status = statusAt c w.hist j :=
        show st.encoded.status = (stateAt c w.hist j).encoded.status by rw [henc]
      have hexists : st.exists = (stateAt c w.hist j).exists :=
        show st.encoded.exists = (stateAt c w.hist j).encoded.exists by rw [henc]
      rw [hstatus, hexists]
      cases j with
      | zero => exact .inr ⟨rfl, .inl rfl⟩
      | succ j =>
        have hlt : j < w.hist.length := by
          have := (List.getElem?_eq_some_iff.1 hm).1
          omega
        rw [(hw.stateAt_set wf hlt).1]
        exact .inl ⟨rfl, by omega, rfl⟩

end

/-! ## What the index shows -/

/-- The statuses the execution has a key for. -/
def Index.statuses (ix : Index) : Set Status := {s | ix.member (.status s) = true}

/-- The keys there may be while every decision from `lo` on may be indexed again, and none after `hi` has been. -/
structure Index.Traces (c : Setup) (hist : List Message) (lo hi : Nat) (ix : Index) : Prop where
  status : Trails (statusAt c hist) lo hi ix.statuses
  set : .unset ∉ ix.statuses

section
variable {c : Setup} {attrHash : String → String} {hist : List Message} {lo hi : Nat} {ix : Index}

theorem Index.statuses_congr {ix' : Index} (h : ix'.member = ix.member) : ix'.statuses = ix.statuses := by
  unfold Index.statuses
  rw [h]

theorem Index.statuses_put_flow {k : IndexKey} {flow : String} {attrs : SMap String} (hk : k ∈ flowKeys attrHash flow attrs) :
    (ix.write (.put k)).statuses = ix.statuses := by
  ext s
  have hother : IndexKey.status s ≠ k := by
    rintro rfl
    simp [flowKeys, attrKeys] at hk
  simp [Index.statuses, Index.write, hother]

theorem Index.statuses_put (s : Status) : (ix.write (.put (.status s))).statuses = insert s ix.statuses := by
  ext t
  simp [Index.statuses, Index.write]

theorem Index.statuses_erase (s : Status) : (ix.write (.erase (.status s))).statuses = ix.statuses \ {s} := by
  ext t
  simp [Index.statuses, Index.write, and_comm]

def headWrites (attrHash : String → String) (st : State) (created : Bool) : List IndexWrite :=
  .summary (summaryOf st) :: if created then (flowKeys attrHash st.flow st.attrs).map .put else []

theorem indexFrom_eq (st : State) (created : Bool) (prev : Status) :
    indexFrom attrHash st created prev = headWrites attrHash st created ++ statusWrites created prev st.status := rfl

/-- The summary and the keys of a new execution leave its statuses. -/
theorem Index.statuses_heads {st : State} {created : Bool} {l : List IndexWrite} (hl : ∀ u ∈ l, u ∈ headWrites attrHash st created) :
    (ix.writes l).statuses = ix.statuses := by
  refine Index.writes_invariant (P := fun ix' => ix'.statuses = ix.statuses) rfl fun u hu ix' hix => ?_
  rw [← hix]
  rcases List.mem_cons.1 (hl u hu) with rfl | hu
  · rfl
  · cases created with
    | false => cases hu
    | true =>
      obtain ⟨key, hkey, rfl⟩ := List.mem_map.1 hu
      exact Index.statuses_put_flow hkey

namespace Index.Traces

theorem same (h : ix.Traces c hist lo hi) {ix' : Index} (hs : ix'.statuses = ix.statuses) : ix'.Traces c hist lo hi :=
  ⟨hs ▸ h.status, hs ▸ h.set⟩

variable {j lo' : Nat} {s : Status}

theorem put_status (h : ix.Traces c hist lo hi) (hs : s ≠ .unset) (hstatus : Trails (statusAt c hist) lo' hi (insert s ix.statuses)) :
    (ix.write (.put (.status s))).Traces c hist lo' hi := by
  refine ⟨?_, ?_⟩ <;> rw [Index.statuses_put]
  · exact hstatus
  · rintro (hun | hun)
    · exact hs hun.symm
    · exact h.set hun

theorem erase_status (h : ix.Traces c hist lo hi) (hstatus : Trails (statusAt c hist) lo' hi (ix.statuses \ {s})) :
    (ix.write (.erase (.status s))).Traces c hist lo' hi := by
  refine ⟨?_, ?_⟩ <;> rw [Index.statuses_erase]
  · exact hstatus
  · exact fun hun => h.set hun.1

variable (wf : WellFormed c.fl) (hw : Written c.x c.fl c.execID hist)

include wf hw

variable (attrHash) in
/-- A decision from `lo` on is indexed, as far as it gets. -/
theorem rewritten (h : ix.Traces c hist lo hi) (hlo : lo ≤ j)
    (hhi : j < hi) (hlen : hi ≤ hist.length) {created : Bool} {prev : Status} (hcomes : Comes c hist j created prev) (k : Nat) :
    (ix.writes ((indexFrom attrHash (stateAt c hist (j + 1)) created prev).take k)).Traces c hist lo hi := by
  have hset := (hw.stateAt_set wf (show j < hist.length by omega)).2
  rw [indexFrom_eq, List.take_append, Index.writes_append]
  have h₁ : (ix.writes ((headWrites attrHash (stateAt c hist (j + 1)) created).take k)).Traces c hist lo hi :=
    h.same (Index.statuses_heads fun u hu => List.mem_of_mem_take hu)
  revert h₁
  generalize ix.writes _ = ix₁
  intro h₁
  have hput := h₁.put_status hset (h₁.status.put (by omega) hhi)
  generalize k - _ = i
  rcases hcomes.statusWrites with ⟨heq, -⟩ | ⟨heq, hne⟩ | ⟨heq, -⟩ <;> rw [heq]
  · simpa using h₁
  · have hswap := hput.erase_status (by rw [Index.statuses_put]; exact h₁.status.swap hlo hhi hne)
    rcases i with _ | _ | i
    · exact h₁
    · exact hput
    · simpa using hswap
  · rcases i with _ | i
    · exact h₁
    · simpa using hput

variable (attrHash) in
/-- Decision `lo` is indexed to its end: it need not be indexed again. -/
theorem followed (h : ix.Traces c hist lo hi) (hhi : lo < hi)
    (hlen : hi ≤ hist.length) {created : Bool} {prev : Status} (hcomes : Comes c hist lo created prev) :
    (ix.writes (indexFrom attrHash (stateAt c hist (lo + 1)) created prev)).Traces c hist (lo + 1) hi := by
  have hset := (hw.stateAt_set wf (show lo < hist.length by omega)).2
  rw [indexFrom_eq, Index.writes_append]
  have h₁ : (ix.writes (headWrites attrHash (stateAt c hist (lo + 1)) created)).Traces c hist lo hi :=
    h.same (Index.statuses_heads fun u hu => hu)
  revert h₁
  generalize ix.writes _ = ix₁
  intro h₁
  rcases hcomes.statusWrites with ⟨heq, hsame⟩ | ⟨heq, hne⟩ | ⟨heq, hstill⟩ <;> rw [heq]
  · exact ⟨h₁.status.stay hhi hsame, h₁.set⟩
  · have hput := h₁.put_status hset (h₁.status.put (by omega) hhi)
    refine hput.erase_status ?_
    rw [Index.statuses_put]
    exact h₁.status.move hhi hne
  · refine h₁.put_status hset ?_
    rcases hstill with rfl | hsame
    · -- there is no key for the status of an execution that does not exist
      have hkeep : .unset ∉ insert (statusAt c hist 1) ix₁.statuses := by
        rintro (hun | hun)
        · exact hset hun.symm
        · exact h₁.set hun
      have hmove := h₁.status.move hhi hset
      rwa [show statusAt c hist 0 = .unset from rfl, Set.sdiff_singleton_eq_self hkeep] at hmove
    · exact (h₁.status.stay hhi hsame).put le_rfl hhi

end Index.Traces

end

/-! ## The dispatchers and the index -/

/-- An execution, its dispatchers and its index. -/
structure Catalog where
  world : World := {}
  index : Index := {}
  /-- The state each dispatcher has cached. -/
  caches : Nat → Option State := fun _ => none
  /-- How many decisions have been acknowledged. -/
  acked : Nat := 0
  /-- How many decisions something has been written for. -/
  reached : Nat := 0

inductive CatalogAction
  | work (act : Action)
  /-- Dispatcher `i` deals with the next decision; the effects may fail, and the index be written only in part. -/
  | process (i : Nat) (σ : Store) (effects : Bool) (written : Nat) (acked : Bool)
  /-- It gives up on the decision. -/
  | quarantine (i : Nat) (reason : String) (written : Nat) (acked : Bool)
  | skip
  | close (σ : Store) (written : Nat) (acked : Bool)
  /-- A replay in the process of dispatcher `i`; its first pass sees `seen` decisions. -/
  | replay (i : Nat) (σ : Store) (seen : Nat) (written : Nat)
  | evict (i : Nat)

namespace Catalog

variable (c : Setup) (attrHash : String → String) (p : Catalog)

def setCache (i : Nat) (st : Option State) : Catalog := { p with caches := fun j => if j = i then st else p.caches j }

/-- The next decision is acknowledged, if it is dealt with. -/
def settle (done : Bool) : Catalog := { p with acked := if done then p.acked + 1 else p.acked, reached := max p.reached (p.acked + 1) }

def process (i : Nat) (σ : Store) (effects : Bool) (written : Nat) (acked : Bool) : Option Catalog :=
  p.world.hist[p.acked]?.map fun m =>
    match applyDecision c attrHash (p.caches i) σ m with
    | .failed => p.setCache i none
    | .gone => p.settle acked
    | .indexed st ws =>
      if effects then
        ({ p.setCache i (some st) with index := p.index.writes (ws.take written) } : Catalog).settle (acked && ws.length ≤ written)
      else p.setCache i none

def quarantine (i : Nat) (reason : String) (written : Nat) (acked : Bool) : Option Catalog :=
  p.world.hist[p.acked]?.map fun m =>
    let ws := Packtrail.quarantine p.index m.seq reason
    ({ p.setCache i none with index := p.index.writes (ws.take written) } : Catalog).settle (acked && ws.length ≤ written)

/-- The decision of a quarantined execution is skipped unless it ends it. -/
def skip : Option Catalog :=
  match p.world.hist[p.acked]? with
  | some m => if p.index.mark.isSome && (m.decode.find? fun ev => ev.data.terminal).isNone then some (p.settle true) else none
  | none => none

def close (σ : Store) (written : Nat) (acked : Bool) : Option Catalog :=
  match p.index.mark, p.world.hist[p.acked]? with
  | some _, some m => (m.decode.find? fun ev => ev.data.terminal).map fun ev =>
    let ws := closeWrites c σ p.index ev
    ({ p with index := p.index.writes (ws.take written) } : Catalog).settle (acked && ws.length ≤ written)
  | _, _ => none

/-- The decisions a replay goes over. -/
def scan (live : List Message) (mk : QuarantineMark) : List Message := live.filter fun m => max mk.seq 1 ≤ m.seq

/-- The writes of a replay: the mark is lifted between its two passes. -/
def replayWrites (σ : Store) (seen : Nat) (ms : List Message) : List IndexWrite :=
  let first := replayFrom c attrHash σ none (ms.take seen)
  first.1 ++ if first.2.2 then unquarantine ++ (replayFrom c attrHash σ first.2.1 (ms.drop seen)).1 else []

def replay (i : Nat) (σ : Store) (seen written : Nat) : Option Catalog :=
  p.index.mark.map fun mk =>
    let ws := replayWrites c attrHash σ seen (scan σ.live mk)
    { p.setCache i none with index := p.index.writes (ws.take written), reached := p.world.hist.length }

def step : CatalogAction → Option Catalog
  | .work act => (p.world.step c act).map fun w => { p with world := w }
  | .process i σ effects written acked => p.process c attrHash i σ effects written acked
  | .quarantine i reason written acked => p.quarantine i reason written acked
  | .skip => p.skip
  | .close σ written acked => p.close c σ written acked
  | .replay i σ seen written => p.replay c attrHash i σ seen written
  | .evict i => some (p.setCache i none)

end Catalog

def CatalogAction.view : CatalogAction → Option Store
  | .process _ σ _ _ _ | .close σ _ _ | .replay _ σ _ _ => some σ
  | _ => none

/-- Reads are at the head of the log, and what the first pass of a replay has not seen has not been acknowledged. -/
structure CatalogStep (c : Setup) (attrHash : String → String) (p : Catalog) (a : CatalogAction) (p' : Catalog) : Prop where
  work : ∀ act, a = .work act → Step c World.Fresh p.world act p'.world
  view : ∀ σ, a.view = some σ → p.world.Fresh σ
  seen : ∀ i σ seen written mk, a = .replay i σ seen written → p.index.mark = some mk →
    (Catalog.scan σ.live mk).drop seen <:+ p.world.hist.drop p.acked
  next : p.step c attrHash a = some p'

/-- A mark is not written over, and what is to be replayed is in the log. -/
def CatalogOk (p : Catalog) : CatalogAction → Prop
  | .work act => act.frees = false ∧ PutsAtHead p.world act
  | .quarantine .. => p.index.mark = none
  | .replay .. => ∀ mk, p.index.mark = some mk → ∃ m ∈ p.world.store.live, m.seq = mk.seq
  | _ => True

/-! ## What every run keeps -/

/-- The decision the index may be written again from: the next one, or the one that is marked. -/
def Catalog.From (p : Catalog) (lo : Nat) : Prop :=
  p.index.mark = none ∧ lo = p.acked ∨
    ∃ mk m, p.index.mark = some mk ∧ p.world.hist[lo]? = some m ∧ m.seq = mk.seq ∧ lo ≤ p.acked

structure Catalog.Sound (c : Setup) (p : Catalog) : Prop where
  single : p.world.Single c
  cache : ∀ i st, p.caches i = some st → c.Past p.world.hist st
  acked : p.acked ≤ p.reached
  reached : p.reached ≤ p.world.hist.length
  shown : (p.reached = 0 ∧ p.index.mark = none ∧ p.index.statuses = ∅) ∨
    ∃ lo, p.From lo ∧ p.index.Traces c p.world.hist lo p.reached

section
variable {c : Setup} {attrHash : String → String} {hist : List Message} {lo hi : Nat} {ix : Index} {p p' : Catalog}

/-- A write of a membership that leaves the summary and the mark. -/
def IndexWrite.keyed : IndexWrite → Prop
  | .put _ | .erase (.status _) => True
  | _ => False

theorem Index.writes_keyed {l : List IndexWrite} (hl : ∀ u ∈ l, u.keyed) : (ix.writes l).mark = ix.mark ∧ (ix.writes l).summary = ix.summary := by
  refine Index.writes_invariant (P := fun ix' => ix'.mark = ix.mark ∧ ix'.summary = ix.summary) ⟨rfl, rfl⟩ fun u hu ix' hix => ?_
  have hkeyed := hl u hu
  cases u with
  | summary s => exact hkeyed.elim
  | quarantine m => exact hkeyed.elim
  | put k => exact hix
  | erase k =>
    cases k with
    | status s => simpa [Index.write] using hix
    | _ => exact hkeyed.elim

/-- The summary and the mark leave the memberships alone. -/
theorem Index.member_writes {l : List IndexWrite} (hl : ∀ u ∈ l, (∃ s, u = .summary s) ∨ ∃ mk, u = .quarantine mk) :
    (ix.writes l).member = ix.member := by
  refine Index.writes_invariant (P := fun ix' => ix'.member = ix.member) rfl fun u hu ix' hix => ?_
  rcases hl u hu with ⟨s, rfl⟩ | ⟨mk, rfl⟩
  · exact hix
  · exact hix

/-- The mark is written first. -/
theorem Index.mark_quarantine (ix : Index) (seq : Nat) (reason : String) (k : Nat) :
    (ix.writes ((quarantine ix seq reason).take (k + 1))).mark = some ⟨seq, reason⟩ := by
  unfold quarantine
  rw [List.take_succ_cons, Index.writes_cons]
  refine Index.writes_invariant (P := fun ix' => ix'.mark = some ⟨seq, reason⟩) rfl fun u hu ix' hix => ?_
  obtain ⟨s, -, rfl⟩ := mem_updateSummary (List.mem_of_mem_take hu)
  exact hix

theorem statusWrites_keyed {created : Bool} {prev status : Status} : ∀ u ∈ statusWrites created prev status, u.keyed := by
  intro u hu
  unfold statusWrites at hu
  cases created <;> by_cases hs : prev = status <;> simp [hs] at hu
  all_goals rcases hu with rfl | rfl <;> trivial

variable (attrHash) in
theorem indexFrom_keyed (st : State) (created : Bool) (prev : Status) :
    ∃ l, indexFrom attrHash st created prev = .summary (summaryOf st) :: l ∧ ∀ u ∈ l, u.keyed := by
  refine ⟨_, rfl, fun u hu => ?_⟩
  rcases List.mem_append.1 hu with hu | hu
  · cases created with
    | false => cases hu
    | true =>
      obtain ⟨key, -, rfl⟩ := List.mem_map.1 hu
      trivial
  · exact statusWrites_keyed u hu

variable (attrHash ix) in
theorem Index.mark_indexFrom (st : State) (created : Bool) (prev : Status) (k : Nat) :
    (ix.writes ((indexFrom attrHash st created prev).take k)).mark = ix.mark := by
  obtain ⟨l, heq, hl⟩ := indexFrom_keyed attrHash st created prev
  rw [heq]
  cases k with
  | zero => rfl
  | succ k => exact (Index.writes_keyed fun u hu => hl u (List.mem_of_mem_take hu)).1

theorem Index.summary_indexFrom (st : State) (created : Bool) (prev : Status) :
    (ix.writes (indexFrom attrHash st created prev)).summary = some (summaryOf st) := by
  obtain ⟨l, heq, hl⟩ := indexFrom_keyed attrHash st created prev
  rw [heq]
  exact (Index.writes_keyed hl).2

/-- The index an execution has before anything is written. -/
theorem Index.Traces.first (wf : WellFormed c.fl) (hw : Written c.x c.fl c.execID hist) (hnone : ix.statuses = ∅) (hhi : 0 < hi)
    (hlen : hi ≤ hist.length) : ix.Traces c hist 0 hi := by
  have hset := (hw.stateAt_set wf (show 0 < hist.length by omega)).2
  exact ⟨⟨by simp [hnone], .inr ⟨0, le_rfl, hhi, hset⟩⟩, by simp [hnone]⟩

theorem Index.Traces.widen (h : ix.Traces c hist lo hi) {lo' hi' : Nat} (hlo : lo' ≤ lo) (hhi : hi ≤ hi') :
    ix.Traces c hist lo' hi' :=
  ⟨h.status.widen hlo hhi, h.set⟩

/-- The mark and the decision that is marked stay. -/
theorem Catalog.From.keep {lo : Nat} (h : p.From lo) (hmark : p'.index.mark = p.index.mark) (hhist : p.world.hist <+: p'.world.hist)
    (hacked : p.acked ≤ p'.acked) (hnone : p.index.mark = none → p'.acked = p.acked) : p'.From lo := by
  rcases h with ⟨hm, rfl⟩ | ⟨mk, m, hm, hget, hseq, hle⟩
  · exact .inl ⟨hmark.trans hm, (hnone hm).symm⟩
  · refine .inr ⟨mk, m, hmark.trans hm, ?_, hseq, by omega⟩
    obtain ⟨post, hpost⟩ := hhist
    rw [← hpost, List.getElem?_append_left (List.getElem?_eq_some_iff.1 hget).1]
    exact hget

theorem Catalog.From.unmarked {lo : Nat} (h : p.From lo) (hnone : p.index.mark = none) : lo = p.acked := by
  rcases h with ⟨-, rfl⟩ | ⟨mk, -, hmk, -⟩
  · rfl
  · rw [hnone] at hmk
    cases hmk

/-- The decision is acknowledged or not: with a mark, it makes no difference. -/
theorem Catalog.From.settle {lo : Nat} (h : p.From lo) (ix : Index) (caches : Nat → Option State) (done : Bool)
    (hmark : ix.mark = p.index.mark) (hdone : p.index.mark = none → done = false) :
    (({ p with index := ix, caches } : Catalog).settle done).From lo := by
  refine h.keep hmark List.prefix_rfl ?_ (fun hnone => ?_)
  · simp only [Catalog.settle]
    split <;> omega
  · rw [hdone hnone]
    rfl

/-- What a dispatcher may have cached. -/
def Catalog.Caches (c : Setup) (p : Catalog) (caches : Nat → Option State) : Prop :=
  ∀ i st, caches i = some st → c.Past p.world.hist st

variable {i written : Nat} {m : Message} {acked : Bool}

theorem Catalog.Caches.set {caches : Nat → Option State} (h : p.Caches c caches) {st : Option State}
    (hst : ∀ s, st = some s → c.Past p.world.hist s) :
    p.Caches c fun j => if j = i then st else caches j := by
  intro j s hs
  by_cases hj : j = i
  · simp only [hj, if_true] at hs
    exact hst s hs
  · simp only [hj, if_false] at hs
    exact h j s hs

theorem closeWith_status {st : State} {ev : Event} (ht : ev.data.terminal = true) : (closeWith st ev).status = ev.data.outcome := by
  unfold closeWith
  cases hd : ev.data <;> rw [hd] at ht <;> first | cases ht; done | rfl

/-- The log grows: the states the index goes by stay. -/
theorem Index.Traces.grow (h : ix.Traces c hist lo hi) (hlen : hi ≤ hist.length) (l : List Message) :
    ix.Traces c (hist ++ l) lo hi := by
  refine ⟨h.status.congr fun j _ hj => ?_, h.set⟩
  rw [statusAt, statusAt, stateAt_append l (by omega)]

/-! ## Replays -/

variable {w : World}

variable (attrHash) in
/-- The decisions of a scan are indexed one after the other, as far as the writes get. -/
theorem World.Single.replayFrom (wf : WellFormed c.fl) (h : w.Single c) {ms : List Message} {lo : Nat} (hms : ms <+: w.hist.drop lo)
    {cache : Option State} (hcache : ∀ st, cache = some st → c.Past w.hist st) :
    ∃ ws last, Packtrail.replayFrom c attrHash w.store cache ms = (ws, last, true) ∧
    (∀ st, last = some st → c.Past w.hist st) ∧
    ∀ ix : Index, ix.Traces c w.hist lo w.hist.length →
    (∀ k, (ix.writes (ws.take k)).Traces c w.hist lo w.hist.length ∧ (ix.writes (ws.take k)).mark = ix.mark) ∧
    (ix.writes ws).Traces c w.hist (lo + ms.length) w.hist.length ∧
    (ms ≠ [] ∨ ix.summary = some (summaryOf (stateAt c w.hist lo)) →
    (ix.writes ws).summary = some (summaryOf (stateAt c w.hist (lo + ms.length)))) := by
  induction ms generalizing lo cache with
  | nil => exact ⟨[], cache, rfl, hcache, fun ix hix => ⟨fun k => by simpa using hix, hix, fun h => h.resolve_left fun hne => hne rfl⟩⟩
  | cons m ms ih =>
    have hw := h.written
    have hm : w.hist[lo]? = some m := by
      obtain ⟨post, hpost⟩ := hms
      have := congrArg List.head? hpost
      simpa using this.symm
    have hlt := (List.getElem?_eq_some_iff.1 hm).1
    have hrest : ms <+: w.hist.drop (lo + 1) := by
      rw [List.drop_eq_getElem_cons hlt] at hms
      exact (List.cons_prefix_cons.1 hms).2
    obtain ⟨t, created, prev, happly, hfold, hcomes⟩ := h.applyDecision attrHash wf hm hcache
    have hcached : ∀ st, some t = some st → c.Past w.hist st := by
      rintro st ⟨⟩
      exact ⟨_, List.take_prefix _ _, hfold⟩
    obtain ⟨ws, last, heq, hlast, hall⟩ := ih hrest hcached
    refine ⟨indexFrom attrHash (stateAt c w.hist (lo + 1)) created prev ++ ws, last, by simp only [Packtrail.replayFrom, happly, heq],
      hlast, fun ix hix => ?_⟩
    have hfollowed := hix.followed attrHash wf hw hlt le_rfl hcomes
    obtain ⟨hpart, hfull, hsum⟩ := hall _ hfollowed
    have hmark := fun k => Index.mark_indexFrom attrHash ix (stateAt c w.hist (lo + 1)) created prev k
    refine ⟨fun k => ?_, ?_, fun _ => ?_⟩
    · rw [List.take_append, Index.writes_append]
      by_cases hk : k ≤ (indexFrom attrHash (stateAt c w.hist (lo + 1)) created prev).length
      · rw [Nat.sub_eq_zero_of_le hk, List.take_zero, Index.writes_nil]
        exact ⟨hix.rewritten attrHash wf hw le_rfl hlt le_rfl hcomes k, hmark k⟩
      · have hwhole := List.take_of_length_le (Nat.le_of_lt (Nat.not_le.1 hk))
        have hmark := hmark k
        rw [hwhole] at hmark ⊢
        obtain ⟨htraces, hsame⟩ := hpart (k - (indexFrom attrHash (stateAt c w.hist (lo + 1)) created prev).length)
        exact ⟨htraces.widen (Nat.le_succ _) le_rfl, hsame.trans hmark⟩
    · rw [Index.writes_append, List.length_cons, show lo + (ms.length + 1) = lo + 1 + ms.length by omega]
      exact hfull
    · rw [Index.writes_append, List.length_cons, show lo + (ms.length + 1) = lo + 1 + ms.length by omega]
      exact hsum (.inr (Index.summary_indexFrom _ _ _))

/-- The decisions from the marked one on, if it is still in the log. -/
theorem World.Single.scan_eq (wf : WellFormed c.fl) (h : w.Single c) {lo : Nat} {mk : QuarantineMark}
    (hm : w.hist[lo]? = some m) (hseq : m.seq = mk.seq) (hlive : ∃ m' ∈ w.store.live, m'.seq = mk.seq) :
    Catalog.scan w.store.live mk = w.hist.drop lo := by
  obtain ⟨k, hkept, -⟩ := h.archived.sound.live
  have hk : k < mk.seq := by
    obtain ⟨m', hm', hs⟩ := hlive
    rw [hkept] at hm'
    have := (List.mem_filter.1 hm').2
    simp only [decide_eq_true_eq] at this
    omega
  have hsplit := hist_split hm
  have hw := h.written
  rw [hsplit] at hw
  obtain ⟨hbefore, hafter⟩ := hw.around wf
  have hdrop : w.hist.drop lo = m :: w.hist.drop (lo + 1) := by
    obtain ⟨hlt, hget⟩ := List.getElem?_eq_some_iff.1 hm
    rw [List.drop_eq_getElem_cons hlt, hget]
  rw [Catalog.scan, hkept, List.filter_filter, hdrop]
  conv_lhs => rw [hsplit]
  rw [List.filter_append, List.filter_eq_nil_iff.2 fun m' hm' => ?_, List.filter_eq_self.2 fun m' hm' => ?_, List.nil_append]
  · have := hafter m' hm'
    simp only [Bool.and_eq_true, decide_eq_true_eq]
    omega
  · have := hbefore m' hm'
    simp only [Bool.and_eq_true, decide_eq_true_eq]
    omega

/-- Lifting the mark leaves the statuses. -/
theorem Index.Traces.unquarantine (h : ix.Traces c hist lo hi) : (ix.write (.erase .quarantine)).Traces c hist lo hi := by
  refine h.same ?_
  ext s
  simp [Index.statuses, Index.write]

/-! ## The steps of a catalog -/

variable (h : p.Sound c)

include h

theorem Catalog.Sound.setCache : (p.setCache i none).Sound c :=
  ⟨h.single, Catalog.Caches.set h.cache fun _ hs => (by cases hs), h.acked, h.reached, h.shown⟩

/-- A decision is dealt with: what is left to show is what its writes leave. -/
theorem Catalog.Sound.settle (ix : Index) (caches : Nat → Option State) (done : Bool)
    (hm : p.world.hist[p.acked]? = some m) (hcaches : p.Caches c caches)
    (hshown : ∃ lo, (({ p with index := ix, caches } : Catalog).settle done).From lo ∧
    ix.Traces c p.world.hist lo (max p.reached (p.acked + 1))) :
    (({ p with index := ix, caches } : Catalog).settle done).Sound c := by
  have hlt := (List.getElem?_eq_some_iff.1 hm).1
  have hacked := h.acked
  have hreached := h.reached
  refine ⟨h.single, hcaches, ?_, ?_, .inr hshown⟩
  · cases done <;> simp only [Catalog.settle, Bool.false_eq_true, if_false, if_true] <;> omega
  · simp only [Catalog.settle]
    omega

variable (wf : WellFormed c.fl)

include wf

/-- Before the next decision is dealt with. -/
theorem Catalog.Sound.next (hm : p.world.hist[p.acked]? = some m) :
    ∃ lo ≤ p.acked, p.From lo ∧ p.index.Traces c p.world.hist lo (max p.reached (p.acked + 1)) := by
  have hlt := (List.getElem?_eq_some_iff.1 hm).1
  have hreached := h.reached
  have hacked := h.acked
  rcases h.shown with ⟨hzero, hmark, hempty⟩ | ⟨lo, hfrom, htraces⟩
  · exact ⟨0, by omega, .inl ⟨hmark, by omega⟩, .first wf h.single.written hempty (by omega) (by omega)⟩
  · refine ⟨lo, ?_, hfrom, htraces.widen le_rfl (by omega)⟩
    rcases hfrom with ⟨-, rfl⟩ | ⟨mk, m', -, -, -, hle⟩
    · exact le_rfl
    · exact hle

/-- **A decision is indexed**, whole or in part. -/
theorem Catalog.Sound.process {effects : Bool}
    (hs : p.process c attrHash i p.world.store effects written acked = some p') : p'.Sound c := by
  obtain ⟨m, hm, rfl⟩ := Option.map_eq_some_iff.1 hs
  have hw := h.single.written
  have hlt := (List.getElem?_eq_some_iff.1 hm).1
  have hreached := h.reached
  obtain ⟨t, created, prev, happly, hfold, hcomes⟩ := h.single.applyDecision attrHash wf hm (h.cache i)
  rw [happly]
  simp only
  cases effects with
  | false => exact h.setCache
  | true =>
    simp only [if_true]
    obtain ⟨lo, hlo, hfrom, htraces⟩ := h.next wf hm
    have hmark := Index.mark_indexFrom attrHash p.index (stateAt c p.world.hist (p.acked + 1)) created prev written
    have hpart := htraces.rewritten attrHash wf hw hlo (show p.acked < max p.reached (p.acked + 1) by omega) (by omega) hcomes written
    refine h.settle _ _ _ hm (Catalog.Caches.set h.cache fun s hs => ?_) ?_
    · cases hs
      exact ⟨_, List.take_prefix _ _, hfold⟩
    · by_cases hnone : p.index.mark = none ∧ (acked && (indexFrom attrHash (stateAt c p.world.hist (p.acked + 1)) created prev).length ≤ written) = true
      · -- the decision need not be indexed again
        obtain ⟨hnone, hdone⟩ := hnone
        obtain rfl := hfrom.unmarked hnone
        refine ⟨p.acked + 1, .inl ⟨hmark.trans hnone, ?_⟩, ?_⟩
        · simp [Catalog.settle, hdone]
        · simp only [Bool.and_eq_true, decide_eq_true_eq] at hdone
          rw [List.take_of_length_le hdone.2]
          exact htraces.followed attrHash wf hw (by omega) (by omega) hcomes
      · exact ⟨lo, hfrom.settle _ _ _ hmark (fun hnil => Bool.eq_false_iff.2 fun hdone => hnone ⟨hnil, hdone⟩), hpart⟩

theorem Catalog.Sound.quarantine {reason : String}
    (hnone : p.index.mark = none) (hs : p.quarantine i reason written acked = some p') : p'.Sound c := by
  obtain ⟨m, hm, rfl⟩ := Option.map_eq_some_iff.1 hs
  obtain ⟨lo, hlo, hfrom, htraces⟩ := h.next wf hm
  obtain rfl := hfrom.unmarked hnone
  have hquiet : ∀ u ∈ Packtrail.quarantine p.index m.seq reason, (∃ s, u = .summary s) ∨ ∃ mk, u = .quarantine mk := by
    intro u hu
    rcases List.mem_cons.1 hu with rfl | hu
    · exact .inr ⟨_, rfl⟩
    · obtain ⟨s, -, rfl⟩ := mem_updateSummary hu
      exact .inl ⟨_, rfl⟩
  have hpart := htraces.same (Index.statuses_congr <| Index.member_writes fun u hu => hquiet u (List.mem_of_mem_take (i := written) hu))
  refine h.settle _ _ _ hm (Catalog.Caches.set h.cache fun s hs => by cases hs) ⟨p.acked, ?_, hpart⟩
  cases written with
  | zero => exact .inl ⟨hnone, by simp [Catalog.settle, Packtrail.quarantine]⟩
  | succ written =>
    refine .inr ⟨⟨m.seq, reason⟩, m, Index.mark_quarantine _ _ _ _, hm, rfl, ?_⟩
    simp only [Catalog.settle]
    split <;> omega

theorem Catalog.Sound.skip (hs : p.skip = some p') : p'.Sound c := by
  unfold Catalog.skip at hs
  split at hs
  · rename_i m hm
    split at hs
    · rename_i hskip
      cases hs
      simp only [Bool.and_eq_true] at hskip
      obtain ⟨lo, hlo, hfrom, htraces⟩ := h.next wf hm
      have hmark : p.index.mark ≠ none := fun hnone => by
        rw [hnone] at hskip
        cases hskip.1
      exact h.settle p.index p.caches true hm h.cache
        ⟨lo, hfrom.settle _ _ _ rfl (fun hnone => absurd hnone hmark), htraces⟩
    · cases hs
  · cases hs

/-- A quarantined execution is closed by its terminal event: only the key of its last status is put. -/
theorem Catalog.Sound.close {σ : Store}
    (hs : p.close c σ written acked = some p') : p'.Sound c := by
  unfold Catalog.close at hs
  split at hs
  · rename_i mk m hmark hm
    obtain ⟨ev, hfind, rfl⟩ := Option.map_eq_some_iff.1 hs
    obtain ⟨lo, hlo, hfrom, htraces⟩ := h.next wf hm
    have hlt := (List.getElem?_eq_some_iff.1 hm).1
    have hreached := h.reached
    have hw := h.single.written
    have ht : ev.data.terminal = true := by simpa using List.find?_some hfind
    obtain ⟨hout, hchange⟩ := hw.outcome wf hm (List.mem_of_find?_eq_some hfind) ht
    have hset := (hw.stateAt_set wf hlt).2
    have hkeep : ∀ u ∈ closeWrites c σ p.index ev, ∀ ix : Index,
        ix.Traces c p.world.hist lo (max p.reached (p.acked + 1)) ∧ ix.mark = p.index.mark →
        (ix.write u).Traces c p.world.hist lo (max p.reached (p.acked + 1)) ∧ (ix.write u).mark = p.index.mark := by
      rintro u hu ix ⟨htraces, hmk⟩
      rcases List.mem_append.1 hu with hu | hu
      · obtain ⟨s, -, rfl⟩ := mem_updateSummary hu
        exact ⟨htraces.same rfl, hmk⟩
      · obtain ⟨s, -, rfl⟩ := List.mem_map.1 hu
        rw [closeWith_status ht, ← hout]
        by_cases hs : s = statusAt c p.world.hist (p.acked + 1)
        · rw [if_pos hs, hs]
          exact ⟨htraces.put_status hset (htraces.status.put (by omega) (by omega)), hmk⟩
        · rw [if_neg hs]
          exact ⟨htraces.erase_status (htraces.status.drop Set.sdiff_subset hlo (by omega) hchange), by simpa [Index.write] using hmk⟩
    have hpart := Index.writes_invariant ⟨htraces, rfl⟩ fun u hu => hkeep u (List.mem_of_mem_take (i := written) hu)
    refine h.settle _ p.caches _ hm h.cache ⟨lo, hfrom.settle _ _ _ hpart.2 (fun hnone => ?_), hpart.1⟩
    rw [hmark] at hnone
    cases hnone
  · cases hs

variable (attrHash) in
/-- The two passes of a replay, which between them index everything from the marked decision on. -/
theorem Catalog.Sound.passes {mk : QuarantineMark} (seen : Nat) (hmark : p.index.mark = some mk)
    (hlive : ∃ m ∈ p.world.store.live, m.seq = mk.seq) :
    ∃ lo m ws₁ ws₂, p.world.hist[lo]? = some m ∧ m.seq = mk.seq ∧ lo ≤ p.acked ∧
    Catalog.scan p.world.store.live mk = p.world.hist.drop lo ∧
    Catalog.replayWrites c attrHash p.world.store seen (p.world.hist.drop lo) = ws₁ ++ (Packtrail.unquarantine ++ ws₂) ∧
    (∀ k, (p.index.writes (ws₁.take k)).Traces c p.world.hist lo p.world.hist.length ∧ (p.index.writes (ws₁.take k)).mark = some mk) ∧
    (∀ k, (((p.index.writes ws₁).write (.erase .quarantine)).writes (ws₂.take k)).Traces c p.world.hist
    (lo + ((p.world.hist.drop lo).take seen).length) p.world.hist.length ∧
    (((p.index.writes ws₁).write (.erase .quarantine)).writes (ws₂.take k)).mark = none) ∧
    (((p.index.writes ws₁).write (.erase .quarantine)).writes ws₂).Traces c p.world.hist p.world.hist.length p.world.hist.length ∧
    (((p.index.writes ws₁).write (.erase .quarantine)).writes ws₂).summary =
    some (summaryOf (stateAt c p.world.hist p.world.hist.length)) := by
  have hreached := h.reached
  obtain ⟨lo, m, hm, hseq, hle, htraces⟩ : ∃ lo m, p.world.hist[lo]? = some m ∧ m.seq = mk.seq ∧ lo ≤ p.acked ∧
      p.index.Traces c p.world.hist lo p.world.hist.length := by
    rcases h.shown with ⟨-, hnone, -⟩ | ⟨lo, ⟨hnone, -⟩ | ⟨mk', m, hmk, hm, hseq, hle⟩, htraces⟩
    · cases hmark.symm.trans hnone
    · cases hmark.symm.trans hnone
    · cases hmark.symm.trans hmk
      exact ⟨lo, m, hm, hseq, hle, htraces.widen le_rfl hreached⟩
  have hlt := (List.getElem?_eq_some_iff.1 hm).1
  have hempty : ∀ st, (none : Option State) = some st → c.Past p.world.hist st := by
    rintro st ⟨⟩
  obtain ⟨ws₁, last, heq₁, hlast, hfirst⟩ := h.single.replayFrom attrHash wf (List.take_prefix seen (p.world.hist.drop lo)) hempty
  have hrest : (p.world.hist.drop lo).drop seen <+: p.world.hist.drop (lo + ((p.world.hist.drop lo).take seen).length) := by
    rw [List.drop_drop, List.length_take, List.length_drop]
    by_cases hs : seen ≤ p.world.hist.length - lo
    · rw [Nat.min_eq_left hs]
    · rw [List.drop_eq_nil_of_le (by omega)]
      exact List.nil_prefix
  obtain ⟨ws₂, last₂, heq₂, -, hsecond⟩ := h.single.replayFrom attrHash wf hrest hlast
  obtain ⟨hpart, hfull, hsum⟩ := hfirst p.index htraces
  obtain ⟨hpart₂, hfull₂, hsum₂⟩ := hsecond _ hfull.unquarantine
  have hlen : lo + ((p.world.hist.drop lo).take seen).length + ((p.world.hist.drop lo).drop seen).length = p.world.hist.length := by
    simp only [List.length_take, List.length_drop]
    omega
  rw [hlen] at hfull₂ hsum₂
  refine ⟨lo, m, ws₁, ws₂, hm, hseq, hle, h.single.scan_eq wf hm hseq hlive, by simp only [Catalog.replayWrites, heq₁, heq₂, if_true],
    fun k => ⟨(hpart k).1, (hpart k).2.trans hmark⟩, fun k => ⟨(hpart₂ k).1, (hpart₂ k).2.trans rfl⟩, hfull₂, hsum₂ ?_⟩
  -- one of the passes has something to index
  by_cases hne : (p.world.hist.drop lo).take seen = []
  · refine .inl fun hnil => ?_
    rw [hne, hnil] at hlen
    simp only [List.length_nil] at hlen
    omega
  · exact .inr (hsum (.inl hne))

/-- **A replay**, as far as it gets: the mark is lifted once everything acknowledged has been indexed again. -/
theorem Catalog.Sound.replay {seen : Nat}
    (hlive : ∀ mk, p.index.mark = some mk → ∃ m ∈ p.world.store.live, m.seq = mk.seq)
    (hseen : ∀ mk, p.index.mark = some mk → (Catalog.scan p.world.store.live mk).drop seen <:+ p.world.hist.drop p.acked)
    (hs : p.replay c attrHash i p.world.store seen written = some p') : p'.Sound c := by
  obtain ⟨mk, hmark, rfl⟩ := Option.map_eq_some_iff.1 hs
  have hacked := h.acked
  have hreached := h.reached
  obtain ⟨lo, m, ws₁, ws₂, hm, hseq, hle, hscan, hws, hpart, hpart₂, -, -⟩ := h.passes attrHash wf seen hmark (hlive mk hmark)
  have hlt := (List.getElem?_eq_some_iff.1 hm).1
  have hfar : p.acked ≤ lo + ((p.world.hist.drop lo).take seen).length := by
    have := (hseen mk hmark).length_le
    rw [hscan] at this
    simp only [List.length_drop, List.length_take] at this ⊢
    omega
  simp only [hscan, hws]
  refine ⟨h.single, Catalog.Caches.set h.cache fun _ hst => (by cases hst), by simp only [Catalog.setCache]; omega, le_rfl, .inr ?_⟩
  by_cases hw : written ≤ ws₁.length
  · rw [List.take_append_of_le_length hw]
    exact ⟨lo, .inr ⟨mk, m, (hpart written).2, hm, hseq, hle⟩, (hpart written).1⟩
  · obtain ⟨k, hk⟩ : ∃ k, written - ws₁.length = k + 1 := ⟨written - ws₁.length - 1, by omega⟩
    have hindex : p.index.writes ((ws₁ ++ (Packtrail.unquarantine ++ ws₂)).take written) =
        ((p.index.writes ws₁).write (.erase .quarantine)).writes (ws₂.take k) := by
      rw [List.take_append, List.take_of_length_le (by omega), Index.writes_append, hk]
      rfl
    rw [hindex]
    exact ⟨p.acked, .inl ⟨(hpart₂ k).2, rfl⟩, (hpart₂ k).1.widen hfar le_rfl⟩

theorem Catalog.Sound.work {act : Action} (hok : act.frees = false ∧ PutsAtHead p.world act)
    {w : World} (hs : Step c World.Fresh p.world act w) : ({ p with world := w } : Catalog).Sound c := by
  obtain ⟨l, hl⟩ := (World.step_does (World.not_clears hok.1) hs.next).grows
  have hreached := h.reached
  have hacked := h.acked
  refine ⟨h.single.step wf hok.1 hok.2 hs, fun i st hst => (h.cache i st hst).mono ⟨l, hl⟩, h.acked, ?_, ?_⟩
  · have := congrArg List.length hl
    rw [List.length_append] at this
    simp only
    omega
  · rcases h.shown with hnone | ⟨lo, hfrom, htraces⟩
    · exact .inl hnone
    · refine .inr ⟨lo, hfrom.keep rfl ⟨l, hl⟩ le_rfl (fun _ => rfl), ?_⟩
      simp only
      rw [← hl]
      exact htraces.grow hreached l

/-- **Every step keeps the index in line with the log.** -/
theorem Catalog.Sound.step {a : CatalogAction} (hok : CatalogOk p a)
    (hs : CatalogStep c attrHash p a p') : p'.Sound c := by
  have hnext := hs.next
  cases a with
  | work act =>
    have hstep := hs.work act rfl
    obtain ⟨w, hw, rfl⟩ := Option.map_eq_some_iff.1 hnext
    exact h.work wf hok hstep
  | process i σ effects written acked =>
    obtain rfl : σ = p.world.store := hs.view σ rfl
    exact h.process wf hnext
  | quarantine i reason written acked => exact h.quarantine wf hok hnext
  | skip => exact h.skip wf hnext
  | close σ written acked => exact h.close wf hnext
  | replay i σ seen written =>
    obtain rfl : σ = p.world.store := hs.view σ rfl
    exact h.replay wf hok (fun mk hmk => hs.seen i _ seen written mk rfl hmk) hnext
  | evict i =>
    cases hnext
    exact h.setCache

omit h wf in
theorem Catalog.Sound.init (c : Setup) : Catalog.Sound c {} :=
  ⟨.init c, fun _ _ hst => (by cases hst), le_rfl, le_rfl, .inl ⟨rfl, rfl, by simp [Index.statuses]⟩⟩

end

/-! ## What a step that ends without an error leaves -/

/-- All the writes of the operation are made. -/
def Catalog.Ends (c : Setup) (attrHash : String → String) (p : Catalog) : CatalogAction → Prop
  | .process i σ effects written _ => effects = true ∧ ∃ m t ws, p.world.hist[p.acked]? = some m ∧
    applyDecision c attrHash (p.caches i) σ m = .indexed t ws ∧ ws.length ≤ written
  | .close σ written _ => ∃ m ev, p.world.hist[p.acked]? = some m ∧ m.decode.find? (fun ev => ev.data.terminal) = some ev ∧
    (closeWrites c σ p.index ev).length ≤ written
  | .replay _ σ seen written => ∃ mk, p.index.mark = some mk ∧
    (Catalog.replayWrites c attrHash σ seen (Catalog.scan σ.live mk)).length ≤ written
  | _ => False

/-- How many decisions the operation goes up to. -/
def Catalog.upTo (p : Catalog) : CatalogAction → Nat
  | .replay .. => p.world.hist.length
  | _ => p.acked + 1

/-- The one status key and the summary show the status after `n` decisions. -/
def Catalog.Shows (c : Setup) (p : Catalog) (n : Nat) : Prop :=
  ∃ st, foldOf c.x c.fl c.execID (p.world.hist.take n) = .ok st ∧ (∀ s, p.index.member (.status s) = true ↔ s = st.status) ∧
    ∀ sm, p.index.summary = some sm → sm.status = st.status

section
variable {c : Setup} {attrHash : String → String} {ix : Index} {p p' : Catalog} {status : Status}

theorem Index.statuses_moveStatus (hunset : .unset ∉ ix.statuses) (hs : status ≠ .unset) :
    (ix.writes (moveStatus status)).statuses = {status} := by
  simp only [Index.statuses, Set.mem_ofPred_eq, Bool.not_eq_true] at hunset
  ext s
  cases s <;> cases status <;> simp_all [Index.statuses, moveStatus, Packtrail.statuses, Index.write]

theorem moveStatus_keyed : ∀ u ∈ moveStatus status, u.keyed := by
  intro u hu
  obtain ⟨s, -, rfl⟩ := List.mem_map.1 hu
  split <;> trivial

theorem Index.summary_setTerminal {reason error : String} {at_ : Time} {sm : Summary}
    (h : (ix.writes (setTerminal ix status reason error at_)).summary = some sm) : sm.status = status := by
  rw [setTerminal, Index.writes_append, (Index.writes_keyed moveStatus_keyed).2] at h
  unfold updateSummary at h
  split at h
  · rename_i hnone
    rw [Index.writes_nil, hnone] at h
    cases h
  · cases h
    rfl

variable (wf : WellFormed c.fl)

include wf

theorem Catalog.shows_of {n : Nat} (hw : Written c.x c.fl c.execID p.world.hist) (hstatus : p.index.statuses = {statusAt c p.world.hist n})
    (hsummary : ∀ sm, p.index.summary = some sm → sm.status = statusAt c p.world.hist n) : p.Shows c n := by
  refine ⟨_, hw.fold_stateAt wf n, fun s => ?_, hsummary⟩
  show s ∈ p.index.statuses ↔ _
  rw [hstatus, Set.mem_singleton_iff]

variable (h : p.Sound c)

include h

variable {written : Nat}

theorem Catalog.Sound.process_shows {i : Nat} {acked : Bool} (hnone : p.index.mark = none) (hreached : p.reached ≤ p.acked + 1)
    (hends : p.Ends c attrHash (.process i p.world.store true written acked))
    (hs : p.process c attrHash i p.world.store true written acked = some p') : p'.Shows c (p.acked + 1) := by
  obtain ⟨-, m, t, ws, hm, happly, hlen⟩ := hends
  obtain ⟨lo, -, hfrom, htraces⟩ := h.next wf hm
  obtain rfl := hfrom.unmarked hnone
  have hlt := (List.getElem?_eq_some_iff.1 hm).1
  obtain ⟨t', created, prev, happly', -, hcomes⟩ := h.single.applyDecision attrHash wf hm (h.cache i)
  cases happly.symm.trans happly'
  unfold Catalog.process at hs
  rw [hm, Option.map_some, happly, Option.some.injEq] at hs
  simp only [if_true, List.take_of_length_le hlen] at hs
  subst hs
  rw [show max p.reached (p.acked + 1) = p.acked + 1 by omega] at htraces
  refine Catalog.shows_of wf h.single.written (htraces.followed attrHash wf h.single.written (by omega) (by omega) hcomes).status.exact
    fun sm hsm => ?_
  cases (Index.summary_indexFrom _ _ _).symm.trans hsm
  rfl

theorem Catalog.Sound.close_shows {σ : Store} {acked : Bool} (hends : p.Ends c attrHash (.close σ written acked))
    (hs : p.close c σ written acked = some p') : p'.Shows c (p.acked + 1) := by
  obtain ⟨m, ev, hm, hfind, hlen⟩ := hends
  obtain ⟨lo, -, -, htraces⟩ := h.next wf hm
  have hw := h.single.written
  have ht : ev.data.terminal = true := by simpa using List.find?_some hfind
  have hstatus : (closeWith (closingState c σ p.index.mark) ev).status = statusAt c p.world.hist (p.acked + 1) :=
    (closeWith_status ht).trans (hw.outcome wf hm (List.mem_of_find?_eq_some hfind) ht).1.symm
  have hset := (hw.stateAt_set wf (List.getElem?_eq_some_iff.1 hm).1).2
  unfold Catalog.close at hs
  split at hs
  · rename_i mk m' hmark hm'
    cases hm.symm.trans hm'
    rw [hfind, Option.map_some, Option.some.injEq] at hs
    simp only [List.take_of_length_le hlen] at hs
    simp only [closeWrites, hstatus] at hs
    subst hs
    refine Catalog.shows_of wf hw ?_ fun sm hsm => Index.summary_setTerminal hsm
    show (p.index.writes _).statuses = _
    rw [setTerminal, Index.writes_append]
    refine Index.statuses_moveStatus ?_ hset
    rw [Index.statuses_congr <| Index.member_writes fun u hu => .inl ?_]
    · exact htraces.set
    · obtain ⟨s, -, rfl⟩ := mem_updateSummary hu
      exact ⟨_, rfl⟩
  · cases hs

theorem Catalog.Sound.replay_shows {i seen : Nat}
    (hlive : ∀ mk, p.index.mark = some mk → ∃ m ∈ p.world.store.live, m.seq = mk.seq)
    (hends : p.Ends c attrHash (.replay i p.world.store seen written))
    (hs : p.replay c attrHash i p.world.store seen written = some p') : p'.Shows c p.world.hist.length := by
  obtain ⟨mk, hmark, hlen⟩ := hends
  obtain ⟨lo, m, ws₁, ws₂, -, -, -, hscan, hws, -, -, htraces, hsummary⟩ := h.passes attrHash wf seen hmark (hlive mk hmark)
  unfold Catalog.replay at hs
  rw [hmark, Option.map_some, Option.some.injEq] at hs
  simp only [List.take_of_length_le hlen] at hs
  simp only [hscan, hws, Index.writes_append] at hs
  subst hs
  refine Catalog.shows_of wf h.single.written htraces.status.exact fun sm hsm => ?_
  cases hsummary.symm.trans hsm
  rfl

end

/-- **The index is exact.** In every run, an operation that ends without an error leaves one status key, that of the state it goes up to,
and a summary with the same status: a decision that is processed, provided no later one has been indexed and nothing is marked, the terminal
event a quarantined execution is closed by, and a replay, which goes up to the end of the log. -/
theorem index_exact {c : Setup} {attrHash : String → String} (hv : validate c.x c.fl = []) {p p' : Catalog} {a : CatalogAction}
    (hrun : Run (CatalogStep c attrHash) CatalogOk {} p) (hok : CatalogOk p a) (hs : CatalogStep c attrHash p a p')
    (hends : p.Ends c attrHash a)
    (hnext : ∀ i σ effects written acked, a = .process i σ effects written acked → p.index.mark = none ∧ p.reached ≤ p.acked + 1) :
    p'.Shows c (p.upTo a) := by
  have wf := wellFormed_of_validate hv
  have h : p.Sound c := hrun.invariant (Catalog.Sound.init c) fun _ _ _ h hok hstep => h.step wf hok hstep
  cases a with
  | process i σ effects written acked =>
    obtain rfl : σ = p.world.store := hs.view σ rfl
    obtain rfl : effects = true := hends.1
    obtain ⟨hnone, hreached⟩ := hnext _ _ _ _ _ rfl
    exact h.process_shows wf hnone hreached hends hs.next
  | close σ written acked => exact h.close_shows wf hends hs.next
  | replay i σ seen written =>
    obtain rfl : σ = p.world.store := hs.view σ rfl
    exact h.replay_shows wf hok hends hs.next
  | _ => exact hends.elim

/-! ## Indexed reviews -/

def CatalogAction.reading (p : Catalog) : CatalogAction → CatalogAction
  | .work act => .work (act.reading p.world.store)
  | .process i _ effects written acked => .process i p.world.store effects written acked
  | .replay i _ seen written => .replay i p.world.store seen written
  | a => a

/-- The first pass of a replay sees the whole log. -/
def CatalogAction.isPlain (p : Catalog) : CatalogAction → Bool
  | .work act => act.isPlain && !act.frees
  | .process .. => true
  | .quarantine .. => p.index.mark.isNone
  | .replay _ _ seen _ => p.index.mark.all fun mk => p.world.store.live.any (fun m => m.seq == mk.seq) &&
    (Catalog.scan p.world.store.live mk).length ≤ seen
  | _ => false

def Catalog.play (c : Setup) (p : Catalog) (a : CatalogAction) : Option Catalog := if a.isPlain p then p.step c id (a.reading p) else none

theorem CatalogAction.isPlain.step {c : Setup} {p p' : Catalog} {a : CatalogAction} (ha : a.isPlain p = true)
    (hn : p.step c id (a.reading p) = some p') : CatalogOk p (a.reading p) ∧ CatalogStep c id p (a.reading p) p' := by
  cases a with
  | work act =>
    simp only [CatalogAction.isPlain, Bool.and_eq_true, Bool.not_eq_true'] at ha
    obtain ⟨w, hw, rfl⟩ := Option.map_eq_some_iff.1 hn
    refine ⟨⟨?_, Action.isPlain.puts ha.1⟩, fun act' he => ?_, fun _ he => (by cases he), fun _ _ _ _ _ he => (by cases he), hn⟩
    · cases act <;> first | rfl | cases ha.2
    · cases he
      exact Action.isPlain.step ha.1 hw
  | process => exact ⟨trivial, fun _ he => (by cases he), fun σ he => (Option.some.inj he).symm, fun _ _ _ _ _ he => (by cases he), hn⟩
  | quarantine =>
    exact ⟨Option.isNone_iff_eq_none.1 ha, fun _ he => (by cases he), fun _ he => (by cases he), fun _ _ _ _ _ he => (by cases he), hn⟩
  | replay i σ seen written =>
    simp only [CatalogAction.isPlain, Option.all_eq_true, Bool.and_eq_true, List.any_eq_true, beq_iff_eq, decide_eq_true_eq] at ha
    refine ⟨fun mk hmk => (ha mk hmk).1, fun _ he => (by cases he), fun σ he => (Option.some.inj he).symm, ?_, hn⟩
    intro i' σ' seen' written' mk he hmk
    cases he
    rw [List.drop_eq_nil_of_le (ha mk hmk).2]
    exact List.nil_suffix
  | _ => cases ha

theorem Catalog.run_of_play {c : Setup} {p : Catalog} {as : List CatalogAction} (hexec : exec (Catalog.play c) {} as = some p) :
    Run (CatalogStep c id) CatalogOk {} p := by
  refine Run.of_exec .refl (fun a _ u u' hn => ?_) hexec
  unfold Catalog.play at hn
  split at hn
  · rename_i ha
    exact ⟨_, CatalogAction.isPlain.step ha hn⟩
  · cases hn

/-- The start of the review is indexed at the second attempt. -/
def startedCatalog : Catalog :=
  (exec (Catalog.play reviewSetup) {} ((decided startReview 1 1).map .work ++ [.process 0 {} true 1 true, .process 0 {} true 9 true] ++
    (decided completeDraft 3 2).map .work)).get (by decide +kernel)

def Catalog.processed (p : Catalog) : Option Catalog := p.process reviewSetup id 0 p.world.store true 9 true

def indexedCatalog : Catalog := startedCatalog.processed.get (by decide +kernel)

/-- The next decision is indexed with nine writes at most. -/
def Catalog.nears (p : Catalog) : Bool :=
  match p.world.hist[p.acked]?.map (applyDecision reviewSetup id (p.caches 0) p.world.store) with
  | some (.indexed _ ws) => ws.length ≤ 9
  | _ => false

theorem Catalog.nears_ends {p : Catalog} (h : p.nears = true) : p.Ends reviewSetup id (.process 0 p.world.store true 9 true) := by
  unfold Catalog.nears at h
  split at h
  · rename_i t ws heq
    obtain ⟨m, hm, happly⟩ := Option.map_eq_some_iff.1 heq
    exact ⟨rfl, m, t, ws, hm, happly, by simpa using h⟩
  · cases h

theorem indexedCatalog_exact : indexedCatalog.index.member (.status .completed) = true ∧ indexedCatalog.Shows reviewSetup 2 := by
  obtain ⟨hacked, hreached, hmark, hnears, hmember⟩ : startedCatalog.acked = 1 ∧ startedCatalog.reached = 1 ∧
      startedCatalog.index.mark.isNone = true ∧ startedCatalog.nears = true ∧ indexedCatalog.index.member (.status .completed) = true := by
    decide +kernel
  have hle : startedCatalog.reached ≤ startedCatalog.acked + 1 := by omega
  obtain ⟨hok, hstep⟩ := CatalogAction.isPlain.step (p := startedCatalog) (a := .process 0 {} true 9 true) rfl (Option.some_get _).symm
  have hshows : indexedCatalog.Shows reviewSetup (startedCatalog.acked + 1) :=
    index_exact oneTask_valid (Catalog.run_of_play (Option.some_get _).symm) hok hstep (Catalog.nears_ends hnears)
      fun _ _ _ _ _ _ => ⟨Option.isNone_iff_eq_none.1 hmark, hle⟩
  rw [hacked] at hshows
  exact ⟨hmember, hshows⟩

/-- The start is quarantined; the review is signalled and completed, and then replayed to its end. -/
def replayedCatalog : Catalog :=
  (exec (Catalog.play reviewSetup) {} ((decided startReview 1 1).map .work ++ [.quarantine 0 "" 9 true] ++
    (decided ⟨"s1", .signal { name := "go" }⟩ 2 2 ++ decided completeDraft 3 3).map .work ++ [.replay 0 {} 9 99])).get (by decide +kernel)

def behindCatalog : Catalog := replayedCatalog.processed.get (by decide +kernel)

/-- The dispatcher has yet to come to the signal: once it has, a completed review is listed as running. -/
theorem replayed_index_goes_back : Run (CatalogStep reviewSetup id) CatalogOk {} replayedCatalog ∧
    CatalogStep reviewSetup id replayedCatalog (.process 0 replayedCatalog.world.store true 9 true) behindCatalog ∧
    replayedCatalog.Ends reviewSetup id (.process 0 replayedCatalog.world.store true 9 true) ∧
    replayedCatalog.index.mark = none ∧ behindCatalog.index.member (.status .completed) = true ∧
    behindCatalog.index.summary.map Summary.status = some .running ∧
    ((foldOf reviewSetup.x reviewSetup.fl reviewSetup.execID (behindCatalog.world.hist.take 2)).toOption.map State.status) = some .running := by
  obtain ⟨hmark, hnears, hrest⟩ : replayedCatalog.index.mark.isNone = true ∧ replayedCatalog.nears = true ∧
      behindCatalog.index.member (.status .completed) = true ∧ behindCatalog.index.summary.map Summary.status = some .running ∧
      ((foldOf reviewSetup.x reviewSetup.fl reviewSetup.execID (behindCatalog.world.hist.take 2)).toOption.map State.status) =
        some .running := by
    decide +kernel
  exact ⟨Catalog.run_of_play (Option.some_get _).symm,
    (CatalogAction.isPlain.step (a := .process 0 {} true 9 true) rfl (Option.some_get _).symm).2,
    Catalog.nears_ends hnears, Option.isNone_iff_eq_none.1 hmark, hrest⟩

end Packtrail
