import Packtrail.SingleWriter
import Packtrail.Archive

/-
# Continuing as new loses no history

`continueAsNew` writes the segment object before it knows that its continuation is stored, and the object
is named after the first index of the segment alone. An engine that is held up between reading the live log
and writing the object writes what it has read: if another engine has continued the execution in the
meantime, from a later state, the object that continuation names is replaced by a shorter one
(`late_segment_loses_history`). Nor does it check that what it has read of the live log reaches the state it
continues: a read that lags behind makes a segment that is too short.

**`history_complete`**: as long as every segment is read up to the last sequence of the engine's state and
written while that is the end of the log, `History` returns every event, with the indexes 1, 2, 3 and so on, in
whatever order the engines read, write, append and purge, and however far behind their other reads are.
-/

namespace Packtrail

open Replay Transition

section
variable {x : Ext} {fl : Flow} {execID : String} {base : Nat} {l : List Event} {s : State}

/-- The events of a history are numbered from 1. -/
theorem Path.numbered (hp : Path (applySeq x fl) (Stored fl base) (State.new execID) l s) :
    l.map Event.index = List.range' 1 l.length := by
  induction l using List.reverseRecOn generalizing s with
  | nil => rfl
  | append_singleton l ev ih =>
    obtain ⟨s₀, hpre, hlast⟩ := hp.split
    cases hlast with
    | cons guard _ _ =>
      have hindex := guard.promise.index
      rw [(Path.chronicle hpre).count] at hindex
      simp [ih hpre, List.range'_concat, hindex, Nat.add_comm]

theorem Path.strict (hp : Path (applySeq x fl) (Stored fl base) (State.new execID) l s) :
    l.Pairwise fun a b => a.index < b.index := by
  rw [← List.pairwise_map (f := Event.index) (R := (· < ·)), Path.numbered hp]
  exact List.pairwise_lt_range'

/-- The base is the index of the last continuation. -/
theorem Path.base_ge (hp : Path (applySeq x fl) (Stored fl base) (State.new execID) l s) :
    (∀ ev ∈ l, ev.data.isContinued = true → ev.index ≤ s.base) ∧ s.base ≤ s.events := by
  induction l using List.reverseRecOn generalizing s with
  | nil =>
    cases hp
    exact ⟨fun _ h => (List.not_mem_nil h).elim, le_rfl⟩
  | append_singleton l ev ih =>
    obtain ⟨s₀, hpre, hlast⟩ := hp.split
    obtain ⟨hold, hle⟩ := ih hpre
    cases hlast with
    | cons guard ok rest =>
      obtain rfl := rest.eq_of_nil
      obtain ⟨u, hu, rfl⟩ := applySeq_ok.1 ok
      have hindex := guard.promise.index
      have hevents : u.events = s₀.events + 1 := guard.promise.events hu
      show (∀ e ∈ l ++ [ev], e.data.isContinued = true → e.index ≤ u.base) ∧ u.base ≤ u.events
      rcases apply_segments hu with ⟨hb, -, hnot⟩ | ⟨hb, -, d, hd⟩ | ⟨d, hd, hb, -⟩
      · refine ⟨fun e he hc => ?_, by omega⟩
        rcases List.mem_append.1 he with he | he
        · exact (hold e he hc).trans hb.ge
        · rw [List.mem_singleton.1 he, hnot] at hc
          cases hc
      · -- a fork is the first event of its log
        have hzero : s₀.events = 0 := guard.promise.begins.1 (by rw [hd]; rfl)
        have hnil : l = [] := List.eq_nil_of_length_eq_zero ((Path.chronicle hpre).count.symm.trans hzero)
        subst hnil
        refine ⟨fun e he hc => ?_, by omega⟩
        rw [List.mem_singleton.1 he, hd] at hc
        cases hc
      · refine ⟨fun e he _ => ?_, by omega⟩
        rcases List.mem_append.1 he with he | he
        · have := (Path.chronicle hpre).index e he
          omega
        · rw [List.mem_singleton.1 he, hb]

theorem Written.next_index (wf : WellFormed fl) {hist : List Message} {m : Message} {ev : Event}
    (h : Written x fl execID (hist ++ [m])) (hm : m.decode = [ev]) (hs : foldOf x fl execID hist = .ok s) : ev.index = s.events + 1 := by
  obtain ⟨b, t, hp, -⟩ := h.path wf
  rw [eventsOf_append, eventsOf_singleton, hm] at hp
  obtain ⟨s₁, hpre, hlast⟩ := hp.split
  cases hs.symm.trans hpre.replay
  cases hlast with
  | cons guard _ _ => exact guard.promise.index

end

theorem segmentObject_inj {execID : String} {a b : Nat} (h : segmentObject execID a = segmentObject execID b) : a = b :=
  append_toString_inj h

/-! ## What the segments hold -/

/-- The segment that begins at `st.base`. -/
def segmentFrom (st : State) (hist : List Message) : List Event := (eventsOf hist).filter fun ev => st.base ≤ ev.index

/-- What an engine has of its segment, as long as its state is at the end of the log. -/
def Stage.Archived (c : Setup) (w : World) : Stage → Prop
  | .segment st seg => st.lastSeq = headSeq w.hist → seg = segmentFrom st w.hist
  | .continuing st sg => st.lastSeq = headSeq w.hist → w.store.objects[sg.object]? = some (segmentFrom st w.hist) ∧
      ∃ first ≤ st.events, sg.object = segmentObject c.execID first
  | _ => True

/-- The id has been used once. -/
structure World.Current (c : Setup) (w : World) : Prop where
  sound : w.Sound c False
  top : w.top = headSeq w.hist

/-- Every segment named in the log is there, whatever the engines are about to write. -/
structure World.Archived (c : Setup) (w : World) : Prop extends World.Current c w where
  objects : Archives c.x c.fl c.execID (eventsOf w.hist) w.store.objects
  named : ∀ ev ∈ eventsOf w.hist, ∀ d, ev.data = .continued d → ∃ first < ev.index, d.segment.object = segmentObject c.execID first
  stage : ∀ i, (w.engines i).stage.Archived c w

section
variable {c : Setup} {w w' : World}

/-- Stages that hold no segment. -/
def Stage.isPlain : Stage → Bool
  | .segment .. | .continuing .. => false
  | _ => true

theorem Stage.Archived.of_plain {stage : Stage} (h : stage.isPlain = true) : stage.Archived c w := by
  cases stage <;> trivial

variable {e : Engine} {σ : Store} {now : Time} {evs : List Event} {i seq : Nat} {act : Action}

theorem Engine.apply_plain (h : e.stage = .idle) {a : Ask} {trace : String} :
    (e.apply c σ a now trace).stage.isPlain = true := by
  unfold Engine.apply
  repeat' split
  all_goals first | rfl | rw [h]; rfl

theorem Setup.abortTooLarge_plain {expected : Nat} {a : Ask} {trace : String} :
    (c.abortTooLarge σ expected a trace evs now).stage.isPlain = true := by
  unfold Setup.abortTooLarge
  split
  · rfl
  · simp only
    split <;> rfl

/-- Steps that write neither the log nor an object. -/
theorem World.Archived.same (h : w.Archived c) (hs : w'.Sound c False) (hh : w'.hist = w.hist) (ht : w'.top = w.top)
    (ho : w'.store.objects = w.store.objects)
    (he : ∀ i, (w'.engines i).stage = (w.engines i).stage ∨ (w'.engines i).stage.Archived c w') : w'.Archived c := by
  refine ⟨⟨hs, by rw [ht, hh]; exact h.top⟩, by rw [hh, ho]; exact h.objects, by rw [hh]; exact h.named, fun i => ?_⟩
  rcases he i with he | he
  · have hstage := h.stage i
    rw [he]
    unfold Stage.Archived at hstage ⊢
    rwa [hh, ho]
  · exact he

/-- One engine's stage is replaced. -/
theorem World.setEngine_stage (he : e.stage.Archived c w') (j : Nat) :
    ((w.setEngine i e).engines j).stage = (w.engines j).stage ∨ ((w.setEngine i e).engines j).stage.Archived c w' := by
  simp only [World.setEngine]
  split
  · exact .inr he
  · exact .inl rfl

/-- Other engines are behind once something is stored. -/
theorem Stage.Archived.publish {stage : Stage} (hs : stage.Sound c False w) {m : Message} (hm : w.top < m.seq)
    (hh : w'.hist = w.hist ++ [m]) : stage.Archived c w' := by
  have hbehind : ∀ st, Kept c w st → st.lastSeq ≠ headSeq w'.hist := by
    intro st hst
    have := hst.le
    rw [hh, headSeq_append]
    omega
  cases stage with
  | segment st seg => exact fun hq => absurd hq (hbehind st hs)
  | continuing st sg => exact fun hq => absurd hq (hbehind st hs.1)
  | _ => trivial

theorem World.Archived.publish (h : w.Archived c)
    (hs : ((w.publish ⟨seq, evs⟩).setEngine i e).Sound c False) (hseq : w.top < seq) (he : e.stage.isPlain = true)
    (hobj : Archives c.x c.fl c.execID (eventsOf w.hist ++ Message.decode ⟨seq, evs⟩) w.store.objects)
    (hnamed : ∀ ev ∈ Message.decode ⟨seq, evs⟩, ∀ d, ev.data = .continued d →
    ∃ first < ev.index, d.segment.object = segmentObject c.execID first) :
    ((w.publish ⟨seq, evs⟩).setEngine i e).Archived c := by
  have hevents : eventsOf (w.hist ++ [⟨seq, evs⟩]) = eventsOf w.hist ++ Message.decode ⟨seq, evs⟩ := by
    rw [eventsOf_append, eventsOf_singleton]
  refine ⟨⟨hs, (headSeq_append w.hist ⟨seq, evs⟩).symm⟩, ?_, ?_, fun j => ?_⟩
  · exact hevents ▸ hobj
  · intro ev hev
    rcases List.mem_append.1 (hevents ▸ hev : ev ∈ eventsOf w.hist ++ _) with hev | hev
    · exact h.named ev hev
    · exact hnamed ev hev
  · rcases World.setEngine_stage (c := c) (w := w.publish ⟨seq, evs⟩) (i := i) (.of_plain he) j with hj | hj
    · rw [hj]
      exact Stage.Archived.publish (h.sound.engine j).stage hseq rfl
    · exact hj

variable (wf : WellFormed c.fl)

include wf

theorem Proposes.uncontinued {hist : List Message} (hw : Written c.x c.fl c.execID hist)
    {next : State} (h : Proposes c false evs next hist) (hne : evs ≠ []) (seq : Nat) :
    (Message.decode ⟨seq, evs⟩).any (fun ev => ev.data.isContinued) = false := by
  obtain ⟨st, req, now, trace, out, ⟨s, hs, hm⟩, hsrc, -, hcont, hperform, rfl⟩ := h
  obtain ⟨b, s₀, hp, hset⟩ := hw.path wf
  cases hs.symm.trans hp.replay
  have hok : (req.perform c.x c.fl st now).result = .ok out := by rw [hperform]
  have hout : out ≠ [] := fun h => hne (by rw [h]; rfl)
  obtain ⟨_, -, -, -, hkind⟩ := next_decided wf (Path.ready hp hset hm) hsrc hok hout
  refine List.any_eq_false.2 fun ev hev => ?_
  obtain ⟨e, he, hst⟩ := Message.mem_decode hev
  rcases hkind with ⟨seg, cmdID, e', rfl, -⟩ | hplain
  · cases hcont
  · rw [hst.data, hplain e he]
    exact Bool.false_ne_true

/-- A decision is stored. -/
theorem World.Archived.append (h : w.Archived c) {acked : Bool}
    (hn : w.append i seq acked = some w') : w'.Archived c := by
  have hs := h.sound.append wf hn
  unfold World.append at hn
  have hstage := (h.sound.engine i).stage
  split at hn
  · rename_i expected evs next hst
    rw [hst] at hstage
    split at hn
    · cases hn
      exact h.same hs rfl rfl rfl (World.setEngine_stage trivial)
    · rename_i hne
      split at hn
      · rename_i hcas
        cases hn
        have hne : evs ≠ [] := by simpa using hne
        rw [h.sound.lastSeq wf] at hcas
        have hplain := (hstage.head hcas.1).uncontinued wf h.sound.written hne seq
        refine h.publish hs hcas.2 (by split <;> rfl) (h.objects.append_plain hplain) fun ev hev d hd => ?_
        have := List.any_eq_false.1 hplain ev hev
        rw [hd] at this
        exact absurd rfl this
      · cases hn
  · cases hn

/-- A state at the end of the log has the fold's base and number of events. -/
theorem Kept.at_end (h : w.Sound c False) {st : State} (hk : Kept c w st) (hq : st.lastSeq = headSeq w.hist) :
    ∃ s, foldOf c.x c.fl c.execID w.hist = .ok s ∧ st.base = s.base ∧ st.events = s.events ∧ st.lastSeq = s.lastSeq := by
  have hhead : AtHead False w st.lastSeq fun hist => Folds c.x c.fl c.execID hist st := hk.atHead wf h.written
  obtain ⟨s, hs, hm⟩ := hhead.head hq
  have henc : st.encoded = s.encoded := congrArg Encoding.decoded hm
  exact ⟨s, hs, show st.encoded.base = s.encoded.base by rw [henc], show st.encoded.events = s.encoded.events by rw [henc],
    show st.encoded.lastSeq = s.encoded.lastSeq by rw [henc]⟩

/-- What is read at the end of the log is the whole segment. -/
theorem segment_complete (h : w.Sound c False) {live : List Message} (hret : Retains w.hist live) {st : State}
    (hk : Kept c w st) (hq : st.lastSeq = headSeq w.hist) :
    ((readLog live 1 st.lastSeq).filter fun ev => st.base ≤ ev.index) = segmentFrom st w.hist := by
  obtain ⟨s, hs, hbase, -, hlast⟩ := hk.at_end wf h hq
  obtain ⟨b, s₀, hp, -⟩ := h.written.path wf
  cases hs.symm.trans hp.replay
  have hc := Path.chronicle hp
  obtain ⟨_, -, dropped, hsplit, -, hkeep⟩ := hret.split hc
  have hall : (eventsOf live).filter (fun ev => within st.lastSeq ev.seq) = eventsOf live := by
    refine List.filter_eq_self.2 fun ev hev => ?_
    have := (hc.seq ev (by rw [hsplit]; exact List.mem_append_right _ hev)).1
    simp only [within, Bool.or_eq_true, decide_eq_true_eq]
    omega
  have hdropped : dropped.filter (fun ev => st.base ≤ ev.index) = [] := by
    refine List.filter_eq_nil_iff.2 fun ev hev => ?_
    rcases hkeep with rfl | ⟨e, he, hcont⟩
    · cases hev
    · -- it comes before a continuation
      have hstrict := Path.strict hp
      have hle := (Path.base_ge hp).1 e (by rw [hsplit]; exact List.mem_append_right _ he) hcont
      rw [hsplit] at hstrict
      have := (List.pairwise_append.1 hstrict).2.2 ev hev e he
      simp only [decide_eq_true_eq]
      omega
  rw [hret.read hc, hall, segmentFrom, hsplit, List.filter_append, hdropped, List.nil_append]

omit wf

/-- The read of a segment ends at the last sequence of the state it is for. -/
def ReadsToEnd (w : World) : Action → Prop
  | .read i σ =>
    match (w.engines i).stage with
    | .after st => ∀ ev, (readLog σ.live 1 st.lastSeq).getLast? = some ev → ev.seq = st.lastSeq
    | _ => True
  | _ => True

/-- At the end of the log a segment is read from all of it. -/
def ReadsWhole (w : World) : Action → Prop
  | .read i σ => ∀ st, (w.engines i).stage = .after st → st.lastSeq = headSeq w.hist → readLog σ.live 1 st.lastSeq ≠ [] →
      Retains w.hist σ.live
  | _ => True

/-- A view of the log that reaches its end is all of it. -/
theorem ReadsToEnd.whole (wf : WellFormed c.fl) (h : w.Sound c False) (hend : ReadsToEnd w act)
    (hview : ∀ σ, act.view = some σ → w.Lagging c σ) : ReadsWhole w act := by
  cases act <;> simp only [ReadsWhole]
  rename_i i σ
  intro st hst hq hne
  simp only [ReadsToEnd, hst] at hend
  obtain ⟨pre, hpre, hret, -⟩ := hview σ rfl
  obtain ⟨b, s, hp, -⟩ := (h.written.of_prefix hpre).path wf
  obtain ⟨ev, hread⟩ : ∃ ev, (readLog σ.live 1 st.lastSeq).getLast? = some ev := ⟨_, List.getLast?_eq_some_getLast hne⟩
  have hlast := hend ev hread
  have hmem := List.mem_of_getLast? hread
  rw [hret.read (Path.chronicle hp)] at hmem
  obtain ⟨m, hm, hev⟩ := List.mem_flatMap.1 (List.mem_filter.1 hmem).1
  obtain ⟨low, hlive, hkeep⟩ := hret
  have hle := (((h.written.of_prefix hpre).sorted wf).2 m (List.mem_filter.1 (hlive ▸ hm)).1).2
  have hge := h.written.headSeq_le wf hpre
  have hseq := m.decode_seq _ hev
  rw [← h.written.eq_of_headSeq wf hpre (by omega)]
  exact ⟨low, hlive, hkeep⟩

theorem World.Archived.read (wf : WellFormed c.fl) (h : w.Archived c) (hwhole : ReadsWhole w (.read i σ))
    (hs : w'.Sound c False) (hn : w.readSegment i σ = some w') : w'.Archived c := by
  unfold World.readSegment at hn
  have hstage := (h.sound.engine i).stage
  split at hn
  · rename_i st hst
    rw [hst] at hstage
    simp only at hn
    split at hn <;> cases hn
    · exact h.same hs rfl rfl rfl (World.setEngine_stage trivial)
    · rename_i hseg
      refine h.same hs rfl rfl rfl (World.setEngine_stage fun hq => segment_complete wf h.sound (hwhole st hst hq ?_) hstage hq)
      intro hnil
      simp [hnil] at hseg
  · cases hn

theorem World.Archived.continueAsNew (wf : WellFormed c.fl) (h : w.Archived c) {acked : Bool}
    (hn : w.continueAsNew c i now seq acked = some w') : w'.Archived c := by
  have hs := h.sound.continueAsNew wf hn
  unfold World.continueAsNew at hn
  have hstage := (h.sound.engine i).stage
  have harch := h.stage i
  split at hn
  · rename_i st segment hst
    rw [hst] at hstage harch
    simp only at hn
    split at hn
    · cases hn; exact h.same hs rfl rfl rfl (World.setEngine_stage trivial)
    · cases hn; exact h.same hs rfl rfl rfl (World.setEngine_stage trivial)
    · rename_i ev evs hres
      split at hn
      · rename_i hcas
        cases hn
        rw [h.sound.lastSeq wf] at hcas
        obtain ⟨hobj, first, hfirst, hname⟩ := harch hcas.1
        obtain ⟨s, hfold, hbase, hevents, -⟩ := hstage.1.at_end wf h.sound hcas.1
        obtain ⟨e, d, hdec, hd, hseg⟩ := continueAsNew_decode hres (List.cons_ne_nil _ _) seq ""
        refine h.publish hs hcas.2 (by split <;> rfl) ?_ ?_
        · rw [hdec]
          refine h.objects.append_continued hd hfold ?_
          rw [hseg, hobj, segmentFrom, hbase]
        · rw [hdec]
          intro e' he' d' hd'
          rw [List.mem_singleton.1 he'] at hd' ⊢
          cases hd.symm.trans hd'
          have hw : Written c.x c.fl c.execID (w.hist ++ [⟨seq, (ev :: evs).map (Event.traced "")⟩]) := hs.written
          have := hw.next_index wf hdec hfold
          exact ⟨first, by omega, hseg ▸ hname⟩
      · cases hn
  · cases hn

/-- The segment is written at the end of the log. -/
def PutsAtHead (w : World) : Action → Prop
  | .put i =>
    match (w.engines i).stage with
    | .segment st _ => st.lastSeq = w.lastSeq
    | _ => True
  | _ => True

/-- A segment is written: what the other engines have stays, as all of them write the same one. -/
theorem Stage.Archived.put {stage : Stage} {name : String} {seg : List Event} (h : stage.Archived c w) (hs : stage.Sound c False w)
    (hseg : ∀ st, Kept c w st → st.lastSeq = headSeq w.hist → seg = segmentFrom st w.hist) : stage.Archived c (w.putArchive name seg) := by
  cases stage with
  | segment st seg' => exact h
  | continuing st sg =>
    intro hq
    refine ⟨?_, (h hq).2⟩
    show (w.store.objects.insert name seg)[sg.object]? = some (segmentFrom st w.hist)
    rw [get_insert]
    split
    · rw [hseg st hs.1 hq]
    · exact (h hq).1
  | _ => trivial

theorem World.Archived.put (wf : WellFormed c.fl) (h : w.Archived c) (hok : PutsAtHead w (.put i)) (hs : w'.Sound c False)
    (hn : w.putSegment c i = some w') : w'.Archived c := by
  unfold World.putSegment at hn
  have hstage := (h.sound.engine i).stage
  have harch := h.stage i
  simp only [PutsAtHead] at hok
  split at hn
  · rename_i st seg hst
    rw [hst] at hstage harch
    simp only [hst] at hok
    obtain ⟨segment, hsegment, rfl⟩ := Option.map_eq_some_iff.1 hn
    rw [h.sound.lastSeq wf] at hok
    obtain ⟨s, hfold, hbase, hevents, -⟩ := Kept.at_end wf h.sound hstage hok
    have hseg : seg = segmentFrom st w.hist := harch hok
    obtain ⟨b, s₀, hp, -⟩ := h.sound.written.path wf
    cases hfold.symm.trans hp.replay
    -- the object is named after an index of the segment
    obtain ⟨first, hlow, hhigh, hname⟩ : ∃ first, s.base ≤ first ∧ first ≤ s.events ∧ segment.object = segmentObject c.execID first := by
      cases hcons : seg with
      | nil => rw [hcons] at hsegment; cases hsegment
      | cons e es =>
        rw [hcons] at hsegment
        cases hsegment
        have he : e ∈ segmentFrom st w.hist := by rw [← hseg, hcons]; exact List.mem_cons_self
        obtain ⟨hmem, hle⟩ := List.mem_filter.1 he
        simp only [decide_eq_true_eq] at hle
        exact ⟨e.index, hbase ▸ hle, (Path.chronicle hp).index e hmem, rfl⟩
    refine ⟨⟨hs, h.top⟩, ?_, h.named, fun j => ?_⟩
    · -- older segments have smaller names
      intro pre ev post d s₁ hl hd hs₁
      have hev : ev ∈ eventsOf w.hist := by rw [show eventsOf w.hist = _ from hl]; simp
      obtain ⟨first', hlt, hname'⟩ := h.named ev hev d hd
      have hle := (Path.base_ge hp).1 ev hev (by rw [hd]; rfl)
      show (w.store.objects.insert segment.object seg)[d.segment.object]? = _
      rw [get_insert, if_neg]
      · exact h.objects pre ev post d s₁ hl hd hs₁
      · rw [hname, hname']
        intro heq
        have := segmentObject_inj heq
        omega
    · have hnew : (Stage.continuing st segment).Archived c (w.putArchive segment.object seg) := by
        intro _
        refine ⟨?_, first, hevents ▸ hhigh, hname⟩
        show (w.store.objects.insert segment.object seg)[segment.object]? = some (segmentFrom st w.hist)
        rw [get_insert, if_pos rfl, hseg]
      simp only [World.setEngine]
      split
      · exact hnew
      · refine (h.stage j).put (h.sound.engine j).stage fun st' hst' hq => ?_
        -- another engine writes the same segment
        obtain ⟨s', hfold', hbase', -⟩ := hst'.at_end wf h.sound hq
        cases hp.replay.symm.trans hfold'
        rw [hseg, segmentFrom, segmentFrom, hbase, hbase']
  · cases hn

/-- **Every step keeps the segments**, when they are read to the end and written at the end of the log. -/
theorem World.Archived.step (wf : WellFormed c.fl) (h : w.Archived c) {reads : World → Store → Prop}
    (hreads : ∀ σ, reads w σ → ∀ st, σ.load c.x c.fl c.execID 0 = .ok st → ∃ pre, pre <+: w.hist ∧ Folds c.x c.fl c.execID pre st)
    (hfree : act.frees = false) (hreload : Reloads c (· ≤ ·) w act) (hwhole : ReadsWhole w act) (hok : PutsAtHead w act)
    (hs : Step c reads w act w') : w'.Archived c := by
  have hsound : w'.Sound c False := h.sound.step wf hreads hreload False.elim (fun hf => by rw [World.not_clears hfree] at hf; cases hf) hs
  have hn := hs.next
  cases act with
  | decide i σ a now trace =>
    simp only [World.step] at hn
    split at hn <;> cases hn
    rename_i hidle
    exact h.same hsound rfl rfl rfl (World.setEngine_stage (.of_plain (Engine.apply_plain hidle)))
  | reload i σ now =>
    simp only [World.step] at hn
    split at hn <;> cases hn
    exact h.same hsound rfl rfl rfl (World.setEngine_stage (.of_plain Setup.abortTooLarge_plain))
  | append i seq acked => exact h.append wf hn
  | refuse i =>
    simp only [World.step, World.refuse] at hn
    split at hn <;> cases hn <;> exact h.same hsound rfl rfl rfl (World.setEngine_stage trivial)
  | save i =>
    simp only [World.step, World.saveSnapshot] at hn
    split at hn <;> cases hn <;> exact h.same hsound rfl rfl rfl fun _ => .inl rfl
  | read i σ => exact h.read wf hwhole hsound hn
  | put i => exact h.put wf hok hsound hn
  | continueAsNew i now seq acked => exact h.continueAsNew wf hn
  | purge i floor =>
    simp only [World.step, World.purge] at hn
    split at hn <;> cases hn
    revert hsound
    split <;> intro hsound <;> exact h.same hsound rfl rfl rfl (World.setEngine_stage trivial)
  | rest i =>
    simp only [World.step, World.rest] at hn
    split at hn <;> cases hn <;> exact h.same hsound rfl rfl rfl (World.setEngine_stage trivial)
  | crash i =>
    cases hn
    exact h.same hsound rfl rfl rfl (World.setEngine_stage trivial)
  | archive i σ => cases hfree
  | delete i σ now => cases hfree
  | proceed i σ => cases hfree
  | abandon i =>
    cases hn
    exact h.same hsound rfl rfl rfl fun _ => .inl rfl

/-- When reads are of the store as it is, no second load is behind the first. -/
theorem World.Current.reloads (wf : WellFormed c.fl) (h : w.Current c) (hs : Step c World.Fresh w act w') :
    Reloads c (· ≤ ·) w act := by
  cases act <;> simp only [Reloads]
  rename_i i σ now
  have hstage := (h.sound.engine i).stage
  split
  · rename_i hst
    rw [hst] at hstage
    intro st hload
    rw [(h.sound.reads_fresh wf (hs.view σ rfl) hload).lastSeq wf h.sound.written, ← h.top]
    exact hstage.le
  · trivial

theorem World.Archived.step_fresh (wf : WellFormed c.fl) (h : w.Archived c) (hfree : act.frees = false)
    (hok : PutsAtHead w act) (hs : Step c World.Fresh w act w') : w'.Archived c := by
  refine h.step wf (fun σ hσ st hst => ⟨_, List.prefix_refl _, h.sound.reads_fresh wf hσ hst⟩) hfree (h.reloads wf hs) ?_ hok hs
  cases act <;> simp only [ReadsWhole]
  rename_i i σ
  intro _ _ _ _
  rw [show σ = w.store from hs.view σ rfl]
  exact h.sound.live

end

theorem World.Archived.init (c : Setup) : World.Archived c {} :=
  ⟨⟨.init, rfl⟩, Archives.nil, fun _ h => (List.not_mem_nil h).elim, fun _ => trivial⟩

theorem Run.archived {c : Setup} (wf : WellFormed c.fl) {w : World}
    (h : Run (Step c (World.Lagging c))
      (fun w act => act.frees = false ∧ Reloads c (· ≤ ·) w act ∧ ReadsToEnd w act ∧ PutsAtHead w act) {} w) : w.Archived c := by
  refine h.invariant (.init c) fun u act u' hu hok hs => ?_
  obtain ⟨hfree, hreload, hend, hput⟩ := hok
  exact hu.step wf (fun σ hσ st hst => hu.sound.lagging wf hσ hst) hfree hreload (hend.whole wf hu.sound hs.view) hput hs

/-- **No history is lost by continuing as new**, however far behind the loads of the engines are. -/
theorem history_complete {c : Setup} (hv : validate c.x c.fl = []) {w : World}
    (h : Run (Step c (World.Lagging c))
      (fun w act => act.frees = false ∧ Reloads c (· ≤ ·) w act ∧ ReadsToEnd w act ∧ PutsAtHead w act) {} w) (hne : w.hist ≠ []) :
    w.store.history c.execID = .ok (eventsOf w.hist) ∧
      (eventsOf w.hist).map Event.index = List.range' 1 (eventsOf w.hist).length := by
  have wf := wellFormed_of_validate hv
  have harch := Run.archived wf h
  obtain ⟨b, s, hp, hset⟩ := harch.sound.written.path wf
  have hc := Path.chronicle hp
  refine ⟨?_, Path.numbered hp⟩
  have hlive := harch.sound.live.live_ne hc (hset.resolve_left hne).exists
  unfold Store.history
  rw [harch.sound.live.read_all hc]
  simp only [List.isEmpty_iff, hlive, if_false]
  exact withSegments_full wf harch.sound.written harch.sound.live harch.objects

def reviewSetup : Setup := ⟨plainExt, oneTask, "r1", 100, 0⟩

/-- Engine 0 reads its segment and is held up; engine 1 stores a signal and continues the execution as new;
then engine 0 writes what it has read. -/
def lateSegment : List (World → Action) :=
  [fun u => .decide 0 u.store (.command startReview) 1 "", fun _ => .append 0 1 true, fun u => .read 0 u.store,
   fun u => .decide 1 u.store (.command nudge) 2 "", fun _ => .append 1 2 true, fun u => .read 1 u.store, fun _ => .put 1,
   fun _ => .continueAsNew 1 3 3 true, fun _ => .purge 1 2, fun _ => .put 0]

def lateSegmentWorld : World := (exec (fun u act => World.step reviewSetup u (act u)) {} lateSegment).get (by decide +kernel)

theorem late_segment_loses_history :
    validate reviewSetup.x reviewSetup.fl = [] ∧
    Run (Step reviewSetup World.Fresh) (fun _ act => act.frees = false) {} lateSegmentWorld ∧
    (eventsOf lateSegmentWorld.hist).map Event.index = [1, 2, 3, 4, 5, 6] ∧
    (lateSegmentWorld.store.history "r1").toOption.map (fun evs => evs.map Event.index) = some [1, 2, 3, 4, 6] := by
  refine ⟨oneTask_valid, ?_, by decide +kernel, by decide +kernel⟩
  have hexec : exec (fun u act => World.step reviewSetup u (act u)) {} lateSegment = some lateSegmentWorld := (Option.some_get _).symm
  refine Run.of_exec .refl (fun act ha u u' hn => ⟨act u, ?_⟩) hexec
  simp only [lateSegment, List.mem_cons, List.not_mem_nil, or_false] at ha
  rcases ha with rfl | rfl | rfl | rfl | rfl | rfl | rfl | rfl | rfl | rfl <;>
    exact ⟨rfl, fun σ h => (by cases h <;> rfl), fun a h src hsrc => (by cases h <;> cases hsrc), hn⟩

/-- Engine 1 does not see that engine 0 has started the execution, and its start is refused; engine 0 stores a
signal, and then it continues as new. -/
def signalled : List Action :=
  [.decide 0 {} (.command startReview) 1 "", .append 0 1 true, .rest 0, .decide 1 {} (.command startReview) 2 "", .refuse 1,
   .decide 0 {} (.command nudge) 3 "", .append 0 2 true]

def signalledWorld : World := (exec (World.step reviewSetup) {} signalled).get (by decide +kernel)

def readSegmentWorld : World := (signalledWorld.step reviewSetup (.read 0 signalledWorld.store)).get (by decide +kernel)

def putSegmentWorld : World := (readSegmentWorld.step reviewSetup (.put 0)).get (by decide +kernel)

def purgedWorld : World :=
  (exec (World.step reviewSetup) putSegmentWorld [.continueAsNew 0 4 3 true, .purge 0 2]).get (by decide +kernel)

theorem signalled_reads : signalledWorld.store.snapshot.isNone = true ∧
    (match (signalledWorld.engines 0).stage with
      | .after st => (readLog signalledWorld.store.live 1 st.lastSeq).getLast?.all fun ev => ev.seq == st.lastSeq
      | _ => false) = true ∧
    (match (readSegmentWorld.engines 0).stage with
      | .segment st _ => st.lastSeq == readSegmentWorld.lastSeq
      | _ => false) = true := by decide +kernel

theorem purgedWorld_complete :
    purgedWorld.store.history "r1" = .ok (eventsOf purgedWorld.hist) ∧
      (eventsOf purgedWorld.hist).map Event.index = List.range' 1 (eventsOf purgedWorld.hist).length := by
  have hexec : exec (World.step reviewSetup) {} signalled = some signalledWorld := (Option.some_get _).symm
  have hpurged : exec (World.step reviewSetup) putSegmentWorld [.continueAsNew 0 4 3 true, .purge 0 2] = some purgedWorld :=
    (Option.some_get _).symm
  obtain ⟨hsnap, hend, hhead⟩ := signalled_reads
  have hrun : Run (Step reviewSetup (World.Lagging reviewSetup)) (fun w act =>
      act.frees = false ∧ Reloads reviewSetup (· ≤ ·) w act ∧ ReadsToEnd w act ∧ PutsAtHead w act) {} signalledWorld := by
    refine Run.of_exec .refl (fun act ha u u' hn => ⟨act, ?_⟩) hexec
    simp only [signalled, List.mem_cons, List.not_mem_nil, or_false] at ha
    rcases ha with rfl | rfl | rfl | rfl | rfl | rfl | rfl <;>
      exact ⟨⟨rfl, trivial, trivial, trivial⟩, Step.of_lagging (fun σ h => by cases h <;> rfl) (fun a h => by cases h <;> rfl) hn⟩
  have hview : signalledWorld.Lagging reviewSetup signalledWorld.store := by
    refine ⟨_, List.prefix_refl _, (Run.archived (wellFormed_of_validate oneTask_valid) hrun).sound.live, fun b hb => ?_⟩
    rw [hb] at hsnap
    cases hsnap
  have hends : ReadsToEnd signalledWorld (.read 0 signalledWorld.store) := by
    simp only [ReadsToEnd]
    split
    · rename_i hst
      intro ev hev
      simp only [hst, hev] at hend
      exact eq_of_beq hend
    · trivial
  have hputs : PutsAtHead readSegmentWorld (.put 0) := by
    simp only [PutsAtHead]
    split
    · rename_i hst
      simp only [hst] at hhead
      exact eq_of_beq hhead
    · trivial
  have hread : Run _ _ {} readSegmentWorld := hrun.tail (a := Action.read 0 signalledWorld.store) ⟨rfl, trivial, hends, trivial⟩
    ⟨fun σ h => (by cases h; exact hview), fun a h => (by cases h), (Option.some_get _).symm⟩
  have hput : Run _ _ {} putSegmentWorld := hread.tail (a := Action.put 0) ⟨rfl, trivial, trivial, hputs⟩
    ⟨fun σ h => (by cases h), fun a h => (by cases h), (Option.some_get _).symm⟩
  refine history_complete oneTask_valid (hput.of_exec (fun act ha u u' hn => ⟨act, ?_⟩) hpurged) (List.ne_nil_of_length_pos (by decide +kernel))
  simp only [List.mem_cons, List.not_mem_nil, or_false] at ha
  rcases ha with rfl | rfl <;>
    exact ⟨⟨rfl, trivial, trivial, trivial⟩, fun σ h => (by cases h), fun a h => (by cases h), hn⟩

end Packtrail
