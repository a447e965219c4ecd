import Packtrail.Engine

/-
# One writer at a time

However many engines decide commands of an execution, its log is as if one of them had decided everything
(**`single_writer`**): a decision is stored only after the fold it was taken on.

There is one way around it. `abortTooLarge` loads the state again and fails the execution as it is now,
but the append still expects the sequence of the first load; a load that lags behind that sequence fails an
older state, and the append goes through (`stale_abort_stored`). The theorem is about runs in which the
second load is not behind the first.
-/

namespace Packtrail

open Replay Transition

section
variable {x : Ext} {fl : Flow} {execID : String} {hist : List Message} {s : State}

variable {pre : List Message} {σ : Store}

/-- A part of the history that ends where it ends is all of it. -/
theorem Written.eq_of_headSeq (wf : WellFormed fl) (h : Written x fl execID hist) (hpre : pre <+: hist)
    (hq : headSeq pre = headSeq hist) : pre = hist := by
  obtain ⟨post, rfl⟩ := hpre
  cases post using List.reverseRecOn with
  | nil => simp
  | append_singleton post m =>
    have hm : ∀ m' ∈ pre, m'.seq < m.seq := fun m' hm' =>
      (List.pairwise_append.1 (h.sorted wf).1).2.2 m' hm' m (List.mem_append_right _ (List.mem_singleton_self m))
    have hpos := ((h.sorted wf).2 m (by simp)).1
    rw [← List.append_assoc, headSeq_append, headSeq] at hq
    cases hlast : pre.getLast? with
    | none => rw [hlast] at hq; exact absurd hq hpos.ne
    | some m' => rw [hlast] at hq; exact absurd hq (hm m' (List.mem_of_getLast? hlast)).ne

theorem Written.eq_nil (wf : WellFormed fl) (h : Written x fl execID hist) (hq : headSeq hist = 0) : hist = [] :=
  (h.eq_of_headSeq wf (List.nil_prefix) hq.symm).symm

theorem Written.headSeq_le (wf : WellFormed fl) (h : Written x fl execID hist) (hpre : pre <+: hist) :
    headSeq pre ≤ headSeq hist := by
  unfold headSeq
  cases hlast : pre.getLast? with
  | none => exact Nat.zero_le _
  | some m => exact ((h.sorted wf).2 m (hpre.subset (List.mem_of_getLast? hlast))).2

/-- The live log ends where the history ends. -/
theorem Retains.lastSeq {live : List Message} (wf : WellFormed fl) (h : Written x fl execID hist) (hret : Retains hist live) :
    (live.getLast?.map Message.seq).getD 0 = headSeq hist := by
  obtain ⟨c, rfl, hkeep⟩ := hret
  cases hist using List.reverseRecOn with
  | nil => rfl
  | append_singleton l m =>
    obtain ⟨hpos, -⟩ := (h.sorted wf).2 m (by simp)
    rw [headSeq_append]
    by_cases hc : c < m.seq
    · simp [List.filter_append, hc]
    · -- nothing would be left
      have hnil : (l ++ [m]).filter (fun m => c < m.seq) = [] := by
        refine List.filter_eq_nil_iff.2 fun m' hm' => ?_
        have := ((h.sorted wf).2 m' hm').2
        rw [headSeq_append] at this
        simp only [decide_eq_true_eq]
        omega
      rw [hnil] at hkeep
      rcases hkeep with rfl | ⟨ev, hev, -⟩
      · omega
      · cases hev

/-- State `st` encodes as the fold of `hist`. -/
def Folds (x : Ext) (fl : Flow) (execID : String) (hist : List Message) (st : State) : Prop :=
  ∃ s, foldOf x fl execID hist = .ok s ∧ st.marshal = s.marshal

theorem marshal_lastSeq {s t : State} (h : s.marshal = t.marshal) : s.lastSeq = t.lastSeq :=
  show s.encoded.lastSeq = t.encoded.lastSeq from congrArg (fun b : Encoding => b.decoded.lastSeq) h

theorem Folds.lastSeq (wf : WellFormed fl) (hw : Written x fl execID hist) {st : State} (h : Folds x fl execID hist st) :
    st.lastSeq = headSeq hist := by
  obtain ⟨s, hs, hm⟩ := h
  rw [marshal_lastSeq hm, hw.lastSeq wf hs]

/-! ## Loading -/

/-- A live log that is not empty has an event a state can be folded from. -/
theorem Retains.lastBase {base : Nat} {live : List Message} (h : Retains hist live)
    (hp : Path (applySeq x fl) (Stored fl base) (State.new execID) (eventsOf hist) s) (hne : eventsOf live ≠ []) :
    ∃ i, Packtrail.lastBase (eventsOf live) = some i := by
  obtain ⟨c, -, dropped, hsplit, -, hkeep⟩ := h.split (Path.chronicle hp)
  suffices hb : ∃ ev ∈ eventsOf live, ev.data.isBase = true by
    obtain ⟨ev, hev, hb⟩ := hb
    cases hi : Packtrail.lastBase (eventsOf live) with
    | some i => exact ⟨i, rfl⟩
    | none => exact absurd hb (by simp [lastWhere_none hi ev hev])
  rcases hkeep with rfl | ⟨ev, hev, hcont⟩
  · obtain ⟨ev, rest, hev⟩ := List.exists_cons_of_ne_nil hne
    rw [hsplit, List.nil_append, hev] at hp
    have hdef := defOf_head hp
    refine ⟨ev, by simp [hev], ?_⟩
    by_contra hb
    simp [defOf, hb] at hdef
  · refine ⟨ev, hev, ?_⟩
    cases hd : ev.data <;> rw [hd] at hcont <;> first | rfl | cases hcont

/-- A load without a snapshot. -/
theorem loadFrom_head {base : Nat} (hret : Retains hist σ.live)
    (hp : Path (applySeq x fl) (Stored fl base) (State.new execID) (eventsOf hist) s) :
    σ.loadFrom x fl execID 0 none (readLog σ.live 1 0) = .ok s := by
  rw [hret.read_all (Path.chronicle hp)]
  obtain ⟨c, -, dropped, hsplit, -, hkeep⟩ := hret.split (Path.chronicle hp)
  by_cases hnil : eventsOf σ.live = []
  · have hd : dropped = [] := hkeep.resolve_right fun ⟨ev, hev, _⟩ => by rw [hnil] at hev; cases hev
    rw [hsplit, hnil, hd] at hp
    cases hp
    simp [Store.loadFrom, hnil]
  · obtain ⟨i, hi⟩ := hret.lastBase hp hnil
    rw [hsplit] at hp
    exact loadFrom_base hp hi

/-- **A load of the head**: whatever snapshot is there, be it left behind by an earlier execution of the same
id, the last state is loaded. -/
theorem load_head (wf : WellFormed fl) (hw : Written x fl execID hist) (hret : Retains hist σ.live)
    (hsnap : ∀ b, σ.snapshot = some b → (∃ pre, pre <+: hist ∧ ∃ sp, foldOf x fl execID pre = .ok sp ∧ b = sp.marshal) ∨
    ∀ m ∈ hist, (unmarshal b).lastSeq < m.seq) :
    ∃ st, σ.load x fl execID 0 = .ok st ∧ Folds x fl execID hist st := by
  obtain ⟨base, s, hp, -⟩ := hw.path wf
  have hnone := loadFrom_head hret hp
  have hall : (eventsOf hist).filter (fun ev => within 0 ev.seq) = eventsOf hist := List.filter_eq_self.2 fun ev _ => rfl
  have hdone : ∀ st, st.marshal = s.marshal → Folds x fl execID hist st := fun st hm => ⟨s, hp.replay, hm⟩
  unfold Store.load
  cases hs : σ.snapshot with
  | none =>
    simp only [Store.snapshotFor, hs]
    exact ⟨s, hnone, hdone s rfl⟩
  | some b =>
    simp only [Store.snapshotFor, hs, Nat.lt_irrefl, false_and, if_false]
    split
    · rename_i hcont
      rcases hsnap b hs with ⟨pre, ⟨post, rfl⟩, sp, hsp, rfl⟩ | hold
      · have husable : ¬(0 < 0 ∧ 0 < sp.lastSeq) := fun h => Nat.lt_irrefl 0 h.1
        obtain ⟨t, ht, hm⟩ := loadFrom_snapshot wf hw hsp husable hret hcont (by rw [hall]; exact hp)
        exact ⟨t, ht, hdone t hm⟩
      · -- everything comes after the snapshot, so the last base is read
        have hc := Path.chronicle hp
        obtain ⟨c, hlive, dropped, hsplit, -⟩ := hret.split hc
        have hlate : ∀ m ∈ σ.live, (unmarshal b).lastSeq < m.seq := fun m hm =>
          hold m (by rw [hlive] at hm; exact (List.mem_filter.1 hm).1)
        have hread : readLog σ.live ((unmarshal b).lastSeq + 1) 0 = eventsOf σ.live := by
          rw [readLog_live hc hlive]
          refine List.filter_eq_self.2 fun ev hev => ?_
          obtain ⟨m, hm, hev⟩ := List.mem_flatMap.1 hev
          simp [m.decode_seq ev hev, hlate m hm, within]
        rw [hread] at hcont ⊢
        have hne : eventsOf σ.live ≠ [] := by
          intro hnil
          rw [hnil] at hcont
          have hcont : firstSeq σ.live ≠ 0 ∧ firstSeq σ.live ≤ (unmarshal b).lastSeq := of_decide_eq_true hcont
          cases hl : σ.live with
          | nil => rw [hl] at hcont; exact hcont.1 rfl
          | cons m ms =>
            rw [hl] at hcont hlate
            exact absurd (hlate m List.mem_cons_self) (Nat.not_lt.2 hcont.2)
        obtain ⟨i, hi⟩ := hret.lastBase hp hne
        rw [hsplit] at hp
        exact ⟨s, loadFrom_base hp hi, hdone s rfl⟩
    · exact ⟨s, hnone, hdone s rfl⟩

/-- A load from a replica that is behind, with a snapshot that may be ahead of it. -/
theorem load_lagging (wf : WellFormed fl) (hw : Written x fl execID hist) (hpre : pre <+: hist)
    (hret : Retains pre σ.live)
    (hsnap : ∀ b, σ.snapshot = some b → ∃ p, p <+: hist ∧ ∃ sp, foldOf x fl execID p = .ok sp ∧ b = sp.marshal) :
    ∃ st p, p <+: hist ∧ σ.load x fl execID 0 = .ok st ∧ Folds x fl execID p st := by
  have hwp := hw.of_prefix hpre
  by_cases hbehind : ∀ b, σ.snapshot = some b → ∃ p, p <+: pre ∧ ∃ sp, foldOf x fl execID p = .ok sp ∧ b = sp.marshal
  · obtain ⟨st, hload, hst⟩ := load_head wf hwp hret fun b hb => .inl (hbehind b hb)
    exact ⟨st, pre, hpre, hload, hst⟩
  · push Not at hbehind
    obtain ⟨b, hb, hnot⟩ := hbehind
    obtain ⟨p, hp, sp, hsp, rfl⟩ := hsnap b hb
    have hahead : pre <+: p := (List.prefix_or_prefix_of_prefix hpre hp).resolve_right fun h => hnot p h sp hsp rfl
    obtain ⟨base, s, hpath, -⟩ := hwp.path wf
    obtain ⟨c, hlive, -⟩ := hret.split (Path.chronicle hpath)
    -- nothing is read after the snapshot
    have hread : readLog σ.live (sp.encoded.lastSeq + 1) 0 = [] := by
      rw [readLog_live (Path.chronicle hpath) hlive]
      refine List.filter_eq_nil_iff.2 fun ev hev => ?_
      obtain ⟨m, hm, hev⟩ := List.mem_flatMap.1 hev
      have hle := (((hw.of_prefix hp).sorted wf).2 m (hahead.subset (by rw [hlive] at hm; exact (List.mem_filter.1 hm).1))).2
      have hq : sp.encoded.lastSeq = headSeq p := show sp.lastSeq = _ from (hw.of_prefix hp).lastSeq wf hsp
      simp only [m.decode_seq ev hev, hq, Bool.and_eq_true, decide_eq_true_eq]
      omega
    unfold Store.load
    simp only [Store.snapshotFor, hb, Nat.lt_irrefl, false_and, if_false]
    split
    · refine ⟨sp.encoded, p, hp, ?_, sp, hsp, congrArg Encoding.mk (State.encoded_encoded sp)⟩
      show σ.loadFrom x fl execID 0 (some sp.encoded) (readLog σ.live (sp.encoded.lastSeq + 1) 0) = _
      rw [hread]
      rfl
    · exact ⟨s, pre, hpre, loadFrom_head hret hpath, s, hpath.replay, rfl⟩

end

/-! ## What the engines hold -/

/-- What a replica that lags behind shows: the log as it was, and the fold of some decisions as a snapshot. -/
def World.Lagging (c : Setup) (w : World) (σ : Store) : Prop :=
  ∃ pre, pre <+: w.hist ∧ Retains pre σ.live ∧
    ∀ b, σ.snapshot = some b → ∃ p, p <+: w.hist ∧ ∃ sp, foldOf c.x c.fl c.execID p = .ok sp ∧ b = sp.marshal

/-- `P` of the history as long as it ends with sequence `q`; where ids are used again, of the empty one too if
`q` is 0. -/
structure AtHead (reuse : Prop) (w : World) (q : Nat) (P : List Message → Prop) : Prop where
  le : q ≤ w.top
  head : q = headSeq w.hist → P w.hist
  empty : reuse → q = 0 → P []

def Request.isContinue : Request → Bool
  | .continueAsNew .. => true
  | _ => false

/-- Events `evs` that lead to `next` are what is decided after `hist`, by a continuation if `cont`. -/
def Proposes (c : Setup) (cont : Bool) (evs : List Event) (next : State) (hist : List Message) : Prop :=
  ∃ (st : State) (req : Request) (now : Time) (trace : String) (out : List Event), Folds c.x c.fl c.execID hist st ∧
    req.Sourced c.x c.fl ∧ req.NamesSegment c.execID ∧ req.isContinue = cont ∧
    req.perform c.x c.fl st now = ⟨.ok out, next⟩ ∧ evs = out.map (Event.traced trace)

/-- A state that was stored: the fold of a part of the history, or one of an earlier execution of the same id. -/
structure Kept (c : Setup) (w : World) (st : State) : Prop where
  pos : 0 < st.lastSeq
  le : st.lastSeq ≤ w.top
  fold : (∃ pre, pre <+: w.hist ∧ Folds c.x c.fl c.execID pre st) ∨ ∀ m ∈ w.hist, st.lastSeq < m.seq

def Stage.Sound (c : Setup) (reuse : Prop) (w : World) : Stage → Prop
  | .idle => True
  | .tooLarge expected a decided _ evs => AtHead reuse w expected fun hist => ∃ st, Folds c.x c.fl c.execID hist st ∧
      (Request.ask a).Sourced c.x c.fl ∧ (a.decide c.x c.fl st decided).result = .ok evs ∧ evs ≠ []
  | .append expected evs next => AtHead reuse w expected (Proposes c false evs next)
  | .after st | .segment st _ => Kept c w st
  | .continuing st sg => Kept c w st ∧ ∃ first, sg.object = segmentObject c.execID first
  | .purge seq st => Kept c w st ∧ seq ≤ w.top ∧ ((∃ m ∈ w.hist, m.seq = seq ∧ ∃ ev ∈ m.decode, ev.data.isContinued = true) ∨
      ∀ m ∈ w.hist, seq < m.seq)

structure Engine.Sound (c : Setup) (reuse : Prop) (w : World) (e : Engine) : Prop where
  cache : ∀ st, e.cache = some st → AtHead reuse w st.lastSeq fun hist => Folds c.x c.fl c.execID hist st
  stage : e.stage.Sound c reuse w

/-- **What every run keeps**: the log is decided by one writer, and no engine holds anything that could be
appended to it otherwise. -/
structure World.Sound (c : Setup) (reuse : Prop) (w : World) : Prop where
  written : Written c.x c.fl c.execID w.hist
  live : Retains w.hist w.store.live
  top : headSeq w.hist ≤ w.top
  snapshot : ∀ b, w.store.snapshot = some b →
    (∃ pre, pre <+: w.hist ∧ ∃ sp, foldOf c.x c.fl c.execID pre = .ok sp ∧ b = sp.marshal) ∨
      (unmarshal b).lastSeq ≤ w.top ∧ ∀ m ∈ w.hist, (unmarshal b).lastSeq < m.seq
  engine : ∀ i, (w.engines i).Sound c reuse w

section
variable {c : Setup} {reuse : Prop} {w w' : World}

/-- What a step can do to the log. -/
inductive World.Moves (reuse : Prop) (w w' : World) : Prop
  | same (hist : w'.hist = w.hist) (top : w'.top = w.top)
  | publish (m : Message) (hist : w'.hist = w.hist ++ [m]) (top : w'.top = m.seq) (late : w.top < m.seq)
  | clear (hr : reuse) (hist : w'.hist = []) (top : w'.top = w.top)

theorem AtHead.imp {q : Nat} {P Q : List Message → Prop} (h : AtHead reuse w q P) (hPQ : ∀ hist, P hist → Q hist) :
    AtHead reuse w q Q :=
  ⟨h.le, fun hq => hPQ _ (h.head hq), fun hr hq => hPQ _ (h.empty hr hq)⟩

theorem AtHead.moves {q : Nat} {P : List Message → Prop} (h : AtHead reuse w q P) (hm : w.Moves reuse w') :
    AtHead reuse w' q P := by
  have hle := h.le
  cases hm with
  | same hist top => exact ⟨by rw [top]; exact hle, by rw [hist]; exact h.head, h.empty⟩
  | publish m hist top late =>
    refine ⟨by omega, fun hq => ?_, h.empty⟩
    rw [hist, headSeq_append] at hq
    omega
  | clear hr hist top => exact ⟨by omega, fun hq => by rw [hist] at hq ⊢; exact h.empty hr hq, h.empty⟩

variable {next s st : State} {cont : Bool} {hist : List Message} {evs out : List Event} {i seq : Nat} {a : Ask} {now : Time} {σ : Store}
variable {ev : Event} {act : Action}

theorem Kept.moves (h : Kept c w st) (hm : w.Moves reuse w') : Kept c w' st := by
  have hle := h.le
  cases hm with
  | same hist top => exact ⟨h.pos, by rw [top]; exact hle, by rw [hist]; exact h.fold⟩
  | publish m hist top late =>
    refine ⟨h.pos, by omega, ?_⟩
    rw [hist]
    rcases h.fold with ⟨pre, hpre, hf⟩ | hold
    · exact .inl ⟨pre, hpre.trans (List.prefix_append _ _), hf⟩
    · refine .inr fun m' hm' => ?_
      rcases List.mem_append.1 hm' with hm' | hm'
      · exact hold m' hm'
      · rw [List.mem_singleton.1 hm']
        omega
  | clear hr hist top => exact ⟨h.pos, by omega, .inr fun m hm => by rw [hist] at hm; cases hm⟩

theorem Stage.Sound.moves {stage : Stage} (h : stage.Sound c reuse w) (hm : w.Moves reuse w') : stage.Sound c reuse w' := by
  cases stage with
  | idle => trivial
  | tooLarge expected a decided trace evs => exact AtHead.moves h hm
  | append expected evs next => exact AtHead.moves h hm
  | after st => exact Kept.moves h hm
  | segment st seg => exact Kept.moves h hm
  | continuing st segment => exact ⟨h.1.moves hm, h.2⟩
  | purge seq st =>
    obtain ⟨hk, hle, hc⟩ := h
    refine ⟨hk.moves hm, ?_, ?_⟩
    · cases hm <;> omega
    · cases hm with
      | same hist top => rwa [hist]
      | publish m hist top late =>
        rw [hist]
        rcases hc with ⟨m', hm', h'⟩ | hold
        · exact .inl ⟨m', List.mem_append_left _ hm', h'⟩
        · refine .inr fun m' hm' => ?_
          rcases List.mem_append.1 hm' with hm' | hm'
          · exact hold m' hm'
          · rw [List.mem_singleton.1 hm']
            omega
      | clear hr hist top => exact .inr fun m hm => by rw [hist] at hm; cases hm

theorem Engine.Sound.moves {e : Engine} (h : e.Sound c reuse w) (hm : w.Moves reuse w') : e.Sound c reuse w' :=
  ⟨fun st hst => (h.cache st hst).moves hm, h.stage.moves hm⟩

theorem Engine.Sound.new : Engine.Sound c reuse w {} := ⟨fun _ h => (nomatch h), trivial⟩

/-- A loaded state. -/
theorem Folds.atHead (wf : WellFormed c.fl) (hw : Written c.x c.fl c.execID w.hist) (htop : headSeq w.hist ≤ w.top)
    {pre : List Message} (hpre : pre <+: w.hist) (h : Folds c.x c.fl c.execID pre st) :
    AtHead reuse w st.lastSeq fun hist => Folds c.x c.fl c.execID hist st := by
  have hq := h.lastSeq wf (hw.of_prefix hpre)
  have hle := hw.headSeq_le wf hpre
  refine ⟨by omega, fun hhead => ?_, fun _ hzero => ?_⟩
  · rwa [← hw.eq_of_headSeq wf hpre (hq.symm.trans hhead)]
  · rwa [← (hw.of_prefix hpre).eq_nil wf (hq.symm.trans hzero)]

theorem Kept.atHead (wf : WellFormed c.fl) (hw : Written c.x c.fl c.execID w.hist) (h : Kept c w st) :
    AtHead reuse w st.lastSeq fun hist => Folds c.x c.fl c.execID hist st := by
  refine ⟨h.le, fun hhead => ?_, fun _ hzero => absurd hzero h.pos.ne'⟩
  rcases h.fold with ⟨pre, hpre, hf⟩ | hold
  · rwa [← hw.eq_of_headSeq wf hpre ((hf.lastSeq wf (hw.of_prefix hpre)).symm.trans hhead)]
  · -- an older state is no state of this history
    have hpos := h.pos
    unfold headSeq at hhead
    cases hlast : w.hist.getLast? with
    | none => rw [hlast] at hhead; exact absurd hhead hpos.ne'
    | some m => rw [hlast] at hhead; exact absurd hhead (hold m (List.mem_of_getLast? hlast)).ne

theorem World.Sound.lastSeq (wf : WellFormed c.fl) (h : w.Sound c reuse) : w.lastSeq = headSeq w.hist :=
  Retains.lastSeq wf h.written h.live

/-! ## Appending -/

theorem State.Alike.marshal {t : State} (h : s.Alike t) : ({ s with lastSeq := t.lastSeq } : State).marshal = t.marshal := by
  have hcore : s.core = t.core := h
  show Encoding.mk { s.core with lastSeq := t.lastSeq } = Encoding.mk { t.core with lastSeq := t.lastSeq }
  rw [hcore]

/-- What is proposed after a history continues it once it is stored. -/
theorem Proposes.stored (wf : WellFormed c.fl) (hw : Written c.x c.fl c.execID hist)
    (h : Proposes c cont evs next hist) (hne : evs ≠ []) (hseq : headSeq hist < seq) :
    Written c.x c.fl c.execID (hist ++ [⟨seq, evs⟩]) ∧
    Folds c.x c.fl c.execID (hist ++ [⟨seq, evs⟩]) { next with lastSeq := seq } := by
  obtain ⟨st, req, now, trace, out, ⟨s, hs, hm⟩, hsrc, hseg, -, hperform, rfl⟩ := h
  have hok : (req.perform c.x c.fl st now).result = .ok out := by rw [hperform]
  have hout : out ≠ [] := fun h => hne (by rw [h]; rfl)
  rw [← hw.lastSeq wf hs] at hseq
  have hw' := Written.append hw hs hm req now hsrc hseg hok hout hseq trace
  refine ⟨hw', ?_⟩
  obtain ⟨b, s₀, hp, hset⟩ := hw.path wf
  cases hs.symm.trans hp.replay
  obtain ⟨b', t, ht, -, hat⟩ := Path.extend wf hp hset hm hsrc hok hout hseq trace
  have hlast : t.lastSeq = seq := (hw'.lastSeq wf ht.replay).trans (headSeq_append _ _)
  refine ⟨t, ht.replay, ?_⟩
  rw [hperform] at hat
  rw [← hlast]
  exact hat.marshal

/-- A decision without events leaves the state as it is. -/
theorem Proposes.nothing (wf : WellFormed c.fl) (hw : Written c.x c.fl c.execID hist)
    (h : Proposes c cont [] next hist) : Folds c.x c.fl c.execID hist { next with lastSeq := headSeq hist } := by
  obtain ⟨st, req, now, trace, out, hf, hsrc, -, -, hperform, hout⟩ := h
  obtain rfl : out = [] := List.map_eq_nil_iff.1 hout.symm
  have hlast := hf.lastSeq wf hw
  obtain ⟨s, hs, hm⟩ := hf
  obtain ⟨b, s₀, hp, hset⟩ := hw.path wf
  cases hs.symm.trans hp.replay
  obtain ⟨b', hd⟩ : ∃ b', Decides c.x c.fl b' st (req.perform c.x c.fl st now) := by
    rcases Path.ready hp hset hm with habs | hset
    · exact perform_absent wf habs req (hsrc.ok wf) now
    · exact ⟨_, perform_settled wf hset req now⟩
  rw [hperform] at hd
  rcases hd with ⟨evs, hevs, hpath, -⟩ | ⟨e, he, -⟩
  · cases hevs
    rw [show next = st from hpath.eq_of_nil, ← hlast]
    exact ⟨s, hs, hm⟩
  · cases he

theorem Peer.of_marshal {fl : Flow} {s' : State} (h : s.marshal = s'.marshal) : Peer false fl s s' := by
  refine State.bare_of_trim ?_
  rw [State.trim_false, State.trim_false]
  exact congrArg Encoding.decoded h

theorem eq_empty_of_map {V W : Type} {m : SMap V} {f : String → V → W} (h : m.map f = (∅ : SMap V).map f) : m = ∅ := by
  have hsize := congrArg Std.ExtTreeMap.size h
  rw [Std.ExtTreeMap.size_map, Std.ExtTreeMap.size_map] at hsize
  exact Std.ExtTreeMap.eq_empty_iff_size_eq_zero.2 hsize

theorem State.eq_new {execID : String} (h : st.marshal = (State.new execID).marshal) : st = State.new execID := by
  have h : st.encoded = (State.new execID).encoded := congrArg Encoding.decoded h
  have hresults : st.results = ∅ := eq_empty_of_map (congrArg State.results h)
  have hsignals : st.signals = ∅ := eq_empty_of_map (congrArg State.signals h)
  have hmaps : st.maps = ∅ := eq_empty_of_map (congrArg State.maps h)
  calc st = { st.encoded with results := st.results, signals := st.signals, maps := st.maps } := rfl
    _ = { (State.new execID).encoded with results := ∅, signals := ∅, maps := ∅ } := by rw [h, hresults, hsignals, hmaps]
    _ = State.new execID := rfl

/-- Before an execution exists there is only one state. -/
theorem Folds.eq_new (wf : WellFormed c.fl) (hw : Written c.x c.fl c.execID hist)
    (h : Folds c.x c.fl c.execID hist st) (hex : st.exists = false) : st = State.new c.execID := by
  obtain ⟨s, hs, hm⟩ := h
  obtain ⟨b, s₀, hp, hset⟩ := hw.path wf
  cases hs.symm.trans hp.replay
  rcases hset with rfl | hset
  · cases hp
    exact State.eq_new hm
  · have := (hset.alike (State.alike_of_marshal hm).symm).exists
    rw [hex] at this
    cases this

/-- The failure that replaces a decision, when both were taken on the same fold. -/
theorem abort_proposes (wf : WellFormed c.fl) (hw : Written c.x c.fl c.execID hist)
    {decided : Time} (hst : Folds c.x c.fl c.execID hist st) (hs : Folds c.x c.fl c.execID hist s)
    (hsrc : (Request.ask a).Sourced c.x c.fl) (hevs : (a.decide c.x c.fl st decided).result = .ok evs) (hne : evs ≠ [])
    {cmdID reason msg : String}
    (ho : abort c.x c.fl s (if s.exists then none else evs.head?) cmdID reason msg now = ⟨.ok out, next⟩) (trace : String) :
    Proposes c false (out.map (Event.traced trace)) next hist := by
  refine ⟨s, .abort a decided cmdID reason msg, now, trace, out, hs, hsrc, trivial, rfl, ?_, rfl⟩
  have hpeer : Peer false c.fl st s := by
    obtain ⟨f, hf, hm⟩ := hst
    obtain ⟨f', hf', hm'⟩ := hs
    cases hf.symm.trans hf'
    exact .of_marshal (hm.trans hm'.symm)
  unfold Request.perform
  cases hex : s.exists with
  | false =>
    obtain rfl : st = s := (hst.eq_new wf hw (hpeer.exists.symm.trans hex)).trans (hs.eq_new wf hw hex).symm
    obtain ⟨first, rest, rfl⟩ := List.exists_cons_of_ne_nil hne
    rw [hex] at ho
    simp only [hevs]
    exact ho
  | true =>
    obtain ⟨first, rest, hfirst⟩ : ∃ first rest, (a.decide c.x c.fl s decided).result = .ok (first :: rest) := by
      cases a with
      | command cmd =>
        rcases decide_agrees c.x hpeer cmd decided with ⟨h, -⟩ | ⟨h, h', hsame, -⟩
        · cases hevs.symm.trans h
        · cases hevs.symm.trans h
          cases hsame with
          | nil => exact absurd rfl hne
          | cons => exact ⟨_, _, h'⟩
      | fork src source seq id writes =>
        -- a fork of an id that exists decides nothing
        simp only [Ask.decide, decideFork, hpeer.exists.symm.trans hex] at hevs
        exact absurd (Except.ok.inj hevs).symm hne
    rw [hex] at ho
    simp only [hfirst]
    exact ho

/-! ## One step -/

theorem World.Sound.setEngine (h : w.Sound c reuse) {e : Engine} (he : e.Sound c reuse w) :
    (w.setEngine i e).Sound c reuse := by
  have hm : w.Moves reuse (w.setEngine i e) := .same rfl rfl
  refine ⟨h.written, h.live, h.top, h.snapshot, fun j => ?_⟩
  simp only [World.setEngine]
  split
  · exact he.moves hm
  · exact (h.engine j).moves hm

theorem World.Sound.settle (h : w.Sound c reuse) (i : Nat) : (w.settle i).Sound c reuse :=
  h.setEngine ⟨(h.engine i).cache, trivial⟩

/-- `Cache.Drop` -/
theorem World.Sound.drop (h : w.Sound c reuse) (i : Nat) : (w.setEngine i { w.engines i with cache := none }).Sound c reuse := by
  have he : ({ w.engines i with cache := none } : Engine).Sound c reuse w := ⟨fun _ hst => (by cases hst), (h.engine i).stage⟩
  exact h.setEngine he

/-- What an engine takes up a command with. -/
theorem World.Sound.load (wf : WellFormed c.fl) (h : w.Sound c reuse)
    (hread : ∀ st, σ.load c.x c.fl c.execID 0 = .ok st → ∃ pre, pre <+: w.hist ∧ Folds c.x c.fl c.execID pre st)
    (hst : (w.engines i).load c σ = .ok st) : AtHead reuse w st.lastSeq fun hist => Folds c.x c.fl c.execID hist st := by
  unfold Engine.load at hst
  cases hcache : (w.engines i).cache with
  | some s =>
    rw [hcache] at hst
    cases hst
    exact (h.engine i).cache st hcache
  | none =>
    rw [hcache] at hst
    obtain ⟨pre, hpre, hf⟩ := hread st hst
    exact hf.atHead wf h.written h.top hpre

/-- A decision with events is one of the fold: an archived execution is only joined. -/
theorem Setup.decide_events {o : Outcome}
    (h : c.decide σ s a now = .ok o) (ho : o.result = .ok (ev :: evs)) : o = a.decide c.x c.fl s now := by
  unfold Setup.decide at h
  split at h
  · split at h
    · split at h
      · cases h
      · rename_i old _
        cases h
        cases hj : checkJoin old _ <;> rw [hj] at ho <;> cases ho
    · exact (Except.ok.inj h).symm
  · exact (Except.ok.inj h).symm

variable (wf : WellFormed c.fl)

include wf

theorem Engine.Sound.apply (h : w.Sound c reuse) {trace : String}
    (hread : ∀ st, σ.load c.x c.fl c.execID 0 = .ok st → ∃ pre, pre <+: w.hist ∧ Folds c.x c.fl c.execID pre st)
    (hsrc : (Request.ask a).Sourced c.x c.fl) : ((w.engines i).apply c σ a now trace).Sound c reuse w := by
  unfold Engine.apply
  split
  · exact .new
  · rename_i s hload
    have hs := h.load wf hread hload
    split
    · exact .new
    · rename_i o ho
      split
      · exact .new
      · exact h.engine i
      · rename_i ev evs hres
        have hdec := Setup.decide_events ho hres
        rw [hdec] at hres
        split
        · exact ⟨fun _ h => (nomatch h), hs.imp fun hist hf => ⟨s, hf, hsrc, hres, List.cons_ne_nil _ _⟩⟩
        · refine ⟨fun _ h => (nomatch h), hs.imp fun hist hf => ?_⟩
          refine ⟨s, .ask a, now, trace, ev :: evs, hf, hsrc, trivial, rfl, ?_, rfl⟩
          rw [hdec]
          exact congrArg (Outcome.mk · _) hres

theorem Engine.Sound.abortTooLarge (h : w.Sound c reuse) {expected : Nat}
    {decided : Time} {trace : String} (hstage : (Stage.tooLarge expected a decided trace evs).Sound c reuse w)
    (hread : ∀ st, σ.load c.x c.fl c.execID 0 = .ok st → ∃ pre, pre <+: w.hist ∧ Folds c.x c.fl c.execID pre st)
    (hlate : ∀ st, σ.load c.x c.fl c.execID 0 = .ok st → expected ≤ st.lastSeq ∧ (reuse → st.lastSeq = expected)) :
    (c.abortTooLarge σ expected a trace evs now).Sound c reuse w := by
  unfold Setup.abortTooLarge
  split
  · exact .new
  · rename_i s hload
    obtain ⟨pre, hpre, hf⟩ := hread s hload
    obtain ⟨hle, heq⟩ := hlate s hload
    have hs : AtHead reuse w s.lastSeq fun hist => Folds c.x c.fl c.execID hist s := hf.atHead wf h.written h.top hpre
    have hq := hf.lastSeq wf (h.written.of_prefix hpre)
    simp only
    split
    · exact .new
    · rename_i out hout
      have habort : ∀ hist, Written c.x c.fl c.execID hist → Folds c.x c.fl c.execID hist s →
          (∃ st, Folds c.x c.fl c.execID hist st ∧ (Request.ask a).Sourced c.x c.fl ∧
            (a.decide c.x c.fl st decided).result = .ok evs ∧ evs ≠ []) → Proposes c false (out.map (Event.traced trace)) _ hist :=
        fun hist hw hs ⟨st, hst, hsrc, hevs, hne⟩ =>
          abort_proposes wf hw hst hs hsrc hevs hne (congrArg (Outcome.mk · _) hout) trace
      refine ⟨fun _ h => (nomatch h), hstage.le, fun hhead => ?_, fun hr hzero => ?_⟩
      · -- the second load cannot be ahead of the log
        have := h.written.headSeq_le wf hpre
        exact habort _ h.written (hs.head (by omega)) (hstage.head hhead)
      · exact habort _ .nil (hs.empty hr ((heq hr).trans hzero)) (hstage.empty hr hzero)

theorem Retains.publish {live : List Message} (hw : Written c.x c.fl c.execID hist) (h : Retains hist live)
    {m : Message} (hm : headSeq hist < m.seq) : Retains (hist ++ [m]) (live ++ [m]) := by
  obtain ⟨b, rfl, hkeep⟩ := h
  have hb : b < m.seq := by
    rcases hkeep with rfl | ⟨ev, hev, -⟩
    · omega
    · obtain ⟨m', hm', -⟩ := List.mem_flatMap.1 hev
      obtain ⟨hmem, hlt⟩ := List.mem_filter.1 hm'
      have := ((hw.sorted wf).2 m' hmem).2
      simp only [decide_eq_true_eq] at hlt
      omega
  refine ⟨b, by simp [List.filter_append, hb], hkeep.imp_right fun ⟨ev, hev, h⟩ => ⟨ev, ?_, h⟩⟩
  rw [eventsOf_append]
  exact List.mem_append_left _ hev

/-- A proposal is stored. -/
theorem World.Sound.publish (h : w.Sound c reuse)
    (hp : Proposes c cont evs next w.hist) (hne : evs ≠ []) (hseq : w.top < seq) :
    (w.publish ⟨seq, evs⟩).Sound c reuse ∧ Kept c (w.publish ⟨seq, evs⟩) { next with lastSeq := seq } := by
  have hhead : headSeq w.hist < seq := h.top.trans_lt hseq
  obtain ⟨hw, hf⟩ := hp.stored wf h.written hne hhead
  refine ⟨⟨hw, h.live.publish wf h.written hhead, (headSeq_append _ _).le, fun b hb => ?_, fun i => ?_⟩,
    Nat.zero_lt_of_lt hseq, le_refl seq, .inl ⟨_, List.prefix_refl _, hf⟩⟩
  · rcases h.snapshot b hb with ⟨pre, hpre, hsp⟩ | ⟨hle, hold⟩
    · exact .inl ⟨pre, hpre.trans (List.prefix_append _ _), hsp⟩
    · refine .inr ⟨hle.trans hseq.le, fun m hm => ?_⟩
      rcases List.mem_append.1 hm with hm | hm
      · exact hold m hm
      · rw [List.mem_singleton.1 hm]
        exact hle.trans_lt hseq
  · exact (h.engine i).moves (.publish ⟨seq, evs⟩ rfl rfl hseq)

theorem World.Sound.append (h : w.Sound c reuse) {acked : Bool}
    (hn : w.append i seq acked = some w') : w'.Sound c reuse := by
  unfold World.append at hn
  have hstage := (h.engine i).stage
  split at hn
  · rename_i expected evs next hs
    rw [hs] at hstage
    split at hn
    · -- nothing was decided: the state is put back
      rename_i hempty
      cases hn
      obtain rfl := List.isEmpty_iff.1 hempty
      refine h.setEngine ⟨fun st hst => ?_, trivial⟩
      cases hst
      refine ⟨hstage.le, fun (hq : expected = _) => ?_, fun hr (hq : expected = 0) => ?_⟩
      · have := (hstage.head hq).nothing wf h.written
        rwa [← hq] at this
      · have := (hstage.empty hr hq).nothing wf .nil
        rwa [show headSeq [] = expected from hq.symm] at this
    · rename_i hne
      split at hn
      · rename_i hcas
        cases hn
        rw [h.lastSeq wf] at hcas
        obtain ⟨hsound, hkept⟩ := h.publish wf (hstage.head hcas.1) (by simpa using hne) hcas.2
        refine hsound.setEngine ?_
        split
        · exact ⟨fun st hst => by cases hst; exact hkept.atHead wf hsound.written, hkept⟩
        · exact .new
      · cases hn
  · cases hn

/-- A continuation is stored. -/
theorem World.Sound.continueAsNew (h : w.Sound c reuse) {acked : Bool}
    (hn : w.continueAsNew c i now seq acked = some w') : w'.Sound c reuse := by
  unfold World.continueAsNew at hn
  have hstage := (h.engine i).stage
  split at hn
  · rename_i st segment hs
    rw [hs] at hstage
    obtain ⟨hkept, hfirst⟩ := hstage
    simp only at hn
    split at hn
    · cases hn; exact h.settle i
    · cases hn; exact h.settle i
    · rename_i ev evs hres
      split at hn
      · rename_i hcas
        cases hn
        rw [h.lastSeq wf] at hcas
        have hhead : AtHead reuse w st.lastSeq fun hist => Folds c.x c.fl c.execID hist st := hkept.atHead wf h.written
        obtain ⟨s, hs, hm⟩ := hhead.head hcas.1
        have hprop : Proposes c true ((ev :: evs).map (Event.traced "")) (c.continued st segment now).state w.hist :=
          ⟨unmarshal st.marshal, .continueAsNew segment _, now, "", ev :: evs,
            ⟨s, hs, (congrArg Encoding.mk (State.encoded_encoded st)).trans hm⟩, fun _ h => (nomatch h), hfirst, rfl,
            congrArg (Outcome.mk · _) hres, rfl⟩
        obtain ⟨hsound, hkept'⟩ := h.publish wf hprop (List.cons_ne_nil _ _) hcas.2
        refine hsound.setEngine ?_
        split
        · refine ⟨fun st hst => by cases hst; exact hkept'.atHead wf hsound.written, hkept', le_refl seq, .inl ?_⟩
          obtain ⟨e, d, hdec, hd, -⟩ := continueAsNew_decode hres (List.cons_ne_nil _ _) seq ""
          refine ⟨_, List.mem_append_right _ (List.mem_singleton_self _), rfl, e, ?_, by rw [hd]; rfl⟩
          rw [hdec]
          exact List.mem_singleton_self e
        · exact ⟨fun st hst => ((h.engine i).cache st hst).moves (.publish _ rfl rfl hcas.2), trivial⟩
      · cases hn
  · cases hn

omit wf

/-- A purge up to a continuation. -/
theorem Retains.purge {live : List Message} (h : Retains hist live) (hpos : ∀ m ∈ hist, 0 < m.seq) {k : Nat} (hk : k ≤ seq)
    (hseq : (∃ m ∈ hist, m.seq = seq ∧ ∃ ev ∈ m.decode, ev.data.isContinued = true) ∨ ∀ m ∈ hist, seq < m.seq) :
    Retains hist (live.filter fun m => k ≤ m.seq) := by
  rcases hseq with ⟨m₀, hm₀, rfl, ev, hev, hcont⟩ | hlate
  · obtain ⟨b, rfl, hkeep⟩ := h
    have hfilter : (hist.filter fun m => b < m.seq).filter (fun m => k ≤ m.seq) = hist.filter fun m => max b (k - 1) < m.seq := by
      rw [List.filter_filter]
      refine List.filter_congr fun m hm => ?_
      have hpos := hpos m hm
      rw [← Bool.decide_and]
      exact decide_eq_decide.2 (by omega)
    refine ⟨max b (k - 1), hfilter, ?_⟩
    rw [hfilter]
    by_cases hb : b < m₀.seq
    · have hpos := hpos m₀ hm₀
      exact .inr ⟨ev, List.mem_flatMap.2 ⟨m₀, List.mem_filter.2 ⟨hm₀, by simp; omega⟩, hev⟩, hcont⟩
    · -- an earlier purge went further
      rwa [show max b (k - 1) = b by omega]
  · -- a purge of an earlier execution finds nothing
    obtain ⟨b, rfl, hkeep⟩ := h
    rw [List.filter_eq_self.2 fun m hm => ?_]
    · exact ⟨b, rfl, hkeep⟩
    · have := hlate m (List.mem_filter.1 hm).1
      simp only [decide_eq_true_eq]
      omega

theorem World.Sound.purge (wf : WellFormed c.fl) (h : w.Sound c reuse) {floor : Nat} (hn : w.purge i floor = some w') :
    w'.Sound c reuse := by
  unfold World.purge at hn
  have hstage := (h.engine i).stage
  split at hn
  · rename_i seq st hs
    rw [hs] at hstage
    obtain ⟨-, -, hcont⟩ := hstage
    cases hn
    split
    · exact h.settle i
    · have hpurged : (w.purgeBefore (min seq (floor + 1))).Sound c reuse :=
        ⟨h.written, h.live.purge (fun m hm => ((h.written.sorted wf).2 m hm).1) (Nat.min_le_left _ _) hcont, h.top, h.snapshot, fun j => (h.engine j).moves (.same rfl rfl)⟩
      exact hpurged.settle i
  · cases hn

theorem World.Sound.save (h : w.Sound c reuse) (hk : Kept c w st) : (w.save st).Sound c reuse := by
  refine ⟨h.written, h.live, h.top, fun b hb => ?_, fun j => (h.engine j).moves (.same rfl rfl)⟩
  cases hb
  rcases hk.fold with ⟨pre, hpre, s, hs, hm⟩ | hold
  · exact .inl ⟨pre, hpre, s, hs, hm⟩
  · exact .inr ⟨hk.le, hold⟩

theorem World.Sound.setOp (h : w.Sound c reuse) (i : Nat) (o : Op) : (w.setOp i o).Sound c reuse :=
  ⟨h.written, h.live, h.top, h.snapshot, fun j => (h.engine j).moves (.same rfl rfl)⟩

theorem World.Sound.clear (wf : WellFormed c.fl) (hr : reuse) (h : w.Sound c reuse) : w.clear.Sound c reuse := by
  refine ⟨.nil, ⟨0, rfl, .inl rfl⟩, Nat.zero_le _, fun b hb => .inr ⟨?_, fun m hm => (List.not_mem_nil hm).elim⟩,
    fun j => (h.engine j).moves (.clear hr rfl rfl)⟩
  rcases h.snapshot b hb with ⟨pre, hpre, sp, hsp, rfl⟩ | ⟨hle, -⟩
  · show sp.lastSeq ≤ w.top
    rw [(h.written.of_prefix hpre).lastSeq wf hsp]
    exact (h.written.headSeq_le wf hpre).trans h.top
  · exact hle

/-- The last step of an archive or a delete: the log is purged, and the id is free. -/
def World.clears (w : World) : Action → Bool
  | .proceed i _ =>
    match w.ops i with
    | .purging | .dropping => true
    | _ => false
  | _ => false

theorem World.Sound.proceed (wf : WellFormed c.fl) (h : w.Sound c reuse) (hr : w.clears (.proceed i σ) = true → reuse)
    (hn : w.proceed c i σ = some w') : w'.Sound c reuse := by
  have hsnap : ({ w with store := { w.store with snapshot := none } } : World).Sound c reuse :=
    ⟨h.written, h.live, h.top, fun _ hb => (nomatch hb), fun j => (h.engine j).moves (.same rfl rfl)⟩
  have hobj : ∀ objects, ({ w with store := { w.store with objects } } : World).Sound c reuse := fun objects =>
    ⟨h.written, h.live, h.top, h.snapshot, fun j => (h.engine j).moves (.same rfl rfl)⟩
  unfold World.clears at hr
  unfold World.proceed at hn
  split at hn <;> rename_i hop <;> cases hn <;> simp only [hop] at hr
  · exact (hobj _).setOp i _
  · exact ((h.clear wf (hr trivial)).drop i).setOp i _
  · exact hsnap.setOp i _
  · exact hsnap.setOp i _
  · exact h.setOp i _
  · exact (hobj _).setOp i _
  · exact (h.clear wf (hr trivial)).setOp i _

/-- The second load of `abortTooLarge` ends at a sequence that stands in relation `R` to the first. -/
def Reloads (c : Setup) (R : Nat → Nat → Prop) (w : World) : Action → Prop
  | .reload i σ _ =>
    match (w.engines i).stage with
    | .tooLarge expected _ _ _ _ => ∀ st, σ.load c.x c.fl c.execID 0 = .ok st → R expected st.lastSeq
    | _ => True
  | _ => True

theorem Reloads.mono {c : Setup} {R R' : Nat → Nat → Prop} {w : World} (h : Reloads c R w act)
    (hR : ∀ a b, R a b → R' a b) : Reloads c R' w act := by
  cases act <;> simp only [Reloads] at h ⊢
  split at h
  · exact fun st hst => hR _ _ (h st hst)
  · trivial

/-- Archives and deletes: the id becomes free. -/
def Action.frees : Action → Bool
  | .archive .. | .delete .. | .proceed .. => true
  | _ => false

theorem World.not_clears (h : act.frees = false) : w.clears act = false := by
  cases act <;> first | rfl | cases h

/-- **Every step keeps the log sound.** -/
theorem World.Sound.step (wf : WellFormed c.fl) {reads : World → Store → Prop}
    (hreads : ∀ σ, reads w σ → ∀ st, σ.load c.x c.fl c.execID 0 = .ok st → ∃ pre, pre <+: w.hist ∧ Folds c.x c.fl c.execID pre st)
    (h : w.Sound c reuse) (hle : Reloads c (· ≤ ·) w act) (heq : reuse → Reloads c (· = ·) w act)
    (hclear : w.clears act = true → reuse) (hs : Step c reads w act w') : w'.Sound c reuse := by
  have hn := hs.next
  cases act with
  | decide i σ a now trace =>
    simp only [World.step] at hn
    split at hn <;> cases hn
    exact h.setEngine (.apply wf h (hreads σ (hs.view σ rfl)) (hs.sourced a rfl))
  | reload i σ now =>
    simp only [World.step] at hn
    have hstage := (h.engine i).stage
    simp only [Reloads] at hle heq
    split at hn <;> cases hn
    rename_i expected a decided trace evs hst
    rw [hst] at hstage
    simp only [hst] at hle heq
    exact h.setEngine (.abortTooLarge wf h hstage (hreads σ (hs.view σ rfl))
      fun st hst => ⟨hle st hst, fun hr => (heq hr st hst).symm⟩)
  | append i seq acked => exact h.append wf hn
  | refuse i =>
    simp only [World.step, World.refuse] at hn
    split at hn <;> cases hn <;> exact h.setEngine .new
  | save i =>
    simp only [World.step, World.saveSnapshot] at hn
    have hstage := (h.engine i).stage
    split at hn
    · rename_i hst; cases hn; rw [hst] at hstage; exact h.save hstage
    · rename_i hst; cases hn; rw [hst] at hstage; exact h.save hstage.1
    · cases hn
  | read i σ =>
    simp only [World.step, World.readSegment] at hn
    have hstage := (h.engine i).stage
    split at hn
    · rename_i st hst
      rw [hst] at hstage
      split at hn <;> cases hn
      · exact h.settle i
      · exact h.setEngine ⟨(h.engine i).cache, hstage⟩
    · cases hn
  | put i =>
    simp only [World.step, World.putSegment] at hn
    have hstage := (h.engine i).stage
    split at hn
    · rename_i st seg hst
      rw [hst] at hstage
      obtain ⟨segment, hseg, rfl⟩ := Option.map_eq_some_iff.1 hn
      have hput : (w.putArchive segment.object seg).Sound c reuse :=
        ⟨h.written, h.live, h.top, h.snapshot, fun j => (h.engine j).moves (.same rfl rfl)⟩
      have hsame : w.Moves reuse (w.putArchive segment.object seg) := .same rfl rfl
      exact hput.setEngine ⟨(hput.engine i).cache, Kept.moves hstage hsame, segmentOf_object hseg⟩
    · cases hn
  | continueAsNew i now seq acked => exact h.continueAsNew wf hn
  | purge i floor => exact h.purge wf hn
  | rest i =>
    simp only [World.step, World.rest] at hn
    split at hn <;> cases hn <;> exact h.settle i
  | crash i =>
    cases hn
    exact h.setEngine .new
  | archive i σ =>
    simp only [World.step] at hn
    split at hn
    · split at hn <;> cases hn
      · exact h.setOp i _
      · exact h
    · cases hn; exact h
    · cases hn
  | delete i σ now =>
    simp only [World.step] at hn
    split at hn
    · cases hn; exact (h.drop i).setOp i _
    · cases hn; exact h
    · cases hn
  | proceed i σ => exact h.proceed wf hclear hn
  | abandon i =>
    cases hn
    exact h.setOp i _

/-! ## One writer -/

theorem Payload.canon_weaken {strict : Bool} {p p' : Payload} (h : p.canon strict = p'.canon strict) :
    p.canon false = p'.canon false := by
  have hid : ∀ q : Payload, (q.canon strict).canon false = q.canon false := by
    intro q
    cases strict
    · cases q <;> first | rfl | skip
      rename_i d
      simp only [Payload.canon, Bool.not_false, Bool.true_and]
      split <;> simp_all
    · rw [q.canon_true]
  rw [← hid p, h, hid p']

theorem Event.Follows.weaken {strict : Bool} {k : Nat} {ev' : Event} (h : ev.Follows strict k ev') : ev.Follows false k ev' :=
  ⟨Payload.canon_weaken h.data, h.rest⟩

theorem Event.Follows.refl (ev : Event) : ev.Follows false 0 ev := ⟨rfl, rfl⟩

/-- Requests decided on states with the same encoding. -/
theorem Outcome.Matches.follows {ctx : Ctx} {s' : State} {o o' : Outcome} (he : s'.events = s.events)
    (h : Outcome.Matches false ctx s o o') (h' : Outcome.Matches false ctx s' o' o') (hok : o.result = .ok out) :
    ∃ out', o'.result = .ok out' ∧ List.Forall₂ (Event.Follows false 0) out out' := by
  rcases h with ⟨hr, -⟩ | ⟨hr, hr', hsame, hp, -⟩
  · cases hok.symm.trans hr
  · cases hok.symm.trans hr
    rcases h' with ⟨hr₂, -⟩ | ⟨hr₂, -, -, hp', -⟩
    · cases hr'.symm.trans hr₂
    · cases hr'.symm.trans hr₂
      exact ⟨_, hr', (Path.follows (k := 0) hp hp' hsame he).1.imp fun _ _ h => h.weaken⟩

/-- **A request is decided alike on the fold** and on a state that encodes as it. -/
theorem perform_follows (wf : WellFormed c.fl) (hw : Written c.x c.fl c.execID hist)
    (hs : foldOf c.x c.fl c.execID hist = .ok s) (hm : st.marshal = s.marshal) {req : Request}
    (hok : (req.perform c.x c.fl st now).result = .ok out) :
    ∃ out', (req.perform c.x c.fl s now).result = .ok out' ∧ List.Forall₂ (Event.Follows false 0) out out' := by
  have hpeer : Peer false c.fl st s := .of_marshal hm
  have hself : Peer false c.fl s s := rfl
  have henc : st.encoded = s.encoded := congrArg Encoding.decoded hm
  have hevents : s.events = st.events := show s.encoded.events = st.encoded.events by rw [henc]
  cases hex : s.exists with
  | false =>
    have hst : st = s := (Folds.eq_new wf hw ⟨s, hs, hm⟩ (hpeer.exists.symm.trans hex)).trans
      (Folds.eq_new wf hw ⟨s, hs, rfl⟩ hex).symm
    rw [hst] at hok
    exact ⟨out, hok, List.forall₂_same.2 fun ev _ => .refl ev⟩
  | true =>
    have hex' : st.exists = true := hpeer.exists.symm.trans hex
    cases req with
    | ask a =>
      cases a with
      | command cmd =>
        exact Outcome.Matches.follows hevents (decide_agrees c.x hpeer cmd now) (decide_agrees c.x hself cmd now) hok
      | fork src source seq cmdID writes =>
        simp only [Request.perform, Ask.decide, decideFork, hex'] at hok
        cases hok
        refine ⟨[], ?_, .nil⟩
        simp only [Request.perform, Ask.decide, decideFork, hex]
        rfl
    | continueAsNew seg cmdID =>
      have hstatus : s.status = st.status := hpeer.status
      cases hterm : s.status.terminal with
      | true =>
        simp only [Request.perform, continueAsNew, ← hstatus, hterm, Bool.or_true, if_true] at hok
        cases hok
        refine ⟨[], ?_, .nil⟩
        simp only [Request.perform, continueAsNew, hterm, Bool.or_true, if_true]
      | false =>
        obtain ⟨ev, hd, hev, hout⟩ := @continueAsNew_state c.x c.fl st hex' (hstatus ▸ hterm) seg cmdID now
        obtain ⟨ev', hd', hev', hout'⟩ := @continueAsNew_state c.x c.fl s hex hterm seg cmdID now
        have hsegments : st.segments = s.segments := show st.encoded.segments = s.encoded.segments by rw [henc]
        have hsame : ev' = ev := by
          rw [hev, hev', hd, hd', henc, hsegments]
          simp only [Ctx.event, hevents]
        simp only [Request.perform, hout] at hok
        cases hok
        refine ⟨[ev'], ?_, .cons (hsame ▸ .refl ev) .nil⟩
        simp only [Request.perform, hout']
    | abort a decided cmdID reason msg =>
      cases a with
      | command cmd =>
        simp only [Request.perform, hex'] at hok
        simp only [Request.perform, hex]
        cases hres : (Ask.decide c.x c.fl st decided (.command cmd)).result with
        | error e => rw [hres] at hok; cases hok
        | ok evs =>
          obtain ⟨evs', hres', hall⟩ :=
            Outcome.Matches.follows hevents (decide_agrees c.x hpeer cmd decided) (decide_agrees c.x hself cmd decided) hres
          rw [hres] at hok
          rw [show (Ask.decide c.x c.fl s decided (.command cmd)).result = .ok evs' from hres']
          cases hall with
          | nil =>
            cases hok
            exact ⟨[], rfl, .nil⟩
          | cons =>
            exact Outcome.Matches.follows hevents (abort_agrees c.x hpeer cmdID reason msg now)
              (abort_agrees c.x hself cmdID reason msg now) hok
      | fork src source seq id writes =>
        simp only [Request.perform, Ask.decide, decideFork, hex', if_true] at hok
        cases hok
        refine ⟨[], ?_, .nil⟩
        simp only [Request.perform, Ask.decide, decideFork, hex, if_true]

/-- Every message is what some request decides on the fold of those before it. -/
def DecidedAlone (c : Setup) (hist : List Message) : Prop :=
  ∀ pre m post, hist = pre ++ m :: post → ∃ (s : State) (req : Request) (now : Time) (trace : String) (out : List Event),
    foldOf c.x c.fl c.execID pre = .ok s ∧ req.Sourced c.x c.fl ∧ (req.perform c.x c.fl s now).result = .ok out ∧
      List.Forall₂ (Event.Follows false 0) m.events (out.map (Event.traced trace))

theorem Event.Follows.traced {ev' : Event} (h : ev.Follows false 0 ev') (trace : String) :
    (ev.traced trace).Follows false 0 (ev'.traced trace) := by
  refine ⟨h.data, ?_⟩
  have hrest := h.rest
  cases ev
  cases ev'
  simp only [Event.mk.injEq] at hrest
  simp only [Event.traced, Event.mk.injEq]
  exact ⟨hrest.1, hrest.2.1, hrest.2.2.1, hrest.2.2.2.1, trivial, hrest.2.2.2.2.2⟩

theorem Written.decidedAlone (wf : WellFormed c.fl) (h : Written c.x c.fl c.execID hist) : DecidedAlone c hist := by
  rintro pre m post rfl
  rw [List.append_cons] at h
  have h := h.of_prefix (List.prefix_append _ _)
  generalize hl : pre ++ [m] = l at h
  cases h with
  | nil => simp at hl
  | @append hist s st evs seq hw hs hm req now hsrc hseg hok hne hseq trace =>
    obtain ⟨rfl, hmsg⟩ := List.append_inj' hl rfl
    cases hmsg
    obtain ⟨out, hout, hall⟩ := perform_follows wf hw hs hm hok
    refine ⟨s, req, now, trace, out, hs, hsrc, hout, ?_⟩
    rw [List.forall₂_map_left_iff, List.forall₂_map_right_iff]
    exact hall.imp fun _ _ h => h.traced trace

theorem World.Sound.init : World.Sound c reuse {} :=
  ⟨.nil, ⟨0, rfl, .inl rfl⟩, le_rfl, fun _ hb => (by cases hb), fun _ => .new⟩

theorem World.Sound.lagging (wf : WellFormed c.fl) (h : w.Sound c reuse) (hσ : w.Lagging c σ)
    (hst : σ.load c.x c.fl c.execID 0 = .ok st) : ∃ pre, pre <+: w.hist ∧ Folds c.x c.fl c.execID pre st := by
  obtain ⟨pre, hpre, hret, hsnap⟩ := hσ
  obtain ⟨st', p, hp, hload, hf⟩ := load_lagging wf h.written hpre hret hsnap
  cases hst.symm.trans hload
  exact ⟨p, hp, hf⟩

theorem World.Sound.fresh (wf : WellFormed c.fl) (h : w.Sound c reuse) (hσ : w.Fresh σ) :
    ∃ st, σ.load c.x c.fl c.execID 0 = .ok st ∧ Folds c.x c.fl c.execID w.hist st := by
  rw [show σ = w.store from hσ]
  exact load_head wf h.written h.live fun b hb => (h.snapshot b hb).imp_right fun h => h.2

theorem World.Sound.reads_fresh (wf : WellFormed c.fl) (h : w.Sound c reuse) (hσ : w.Fresh σ)
    (hst : σ.load c.x c.fl c.execID 0 = .ok st) : Folds c.x c.fl c.execID w.hist st := by
  obtain ⟨st', hload, hf⟩ := h.fresh wf hσ
  cases hst.symm.trans hload
  exact hf

end

theorem Run.sound {c : Setup} (wf : WellFormed c.fl) {w : World}
    (h : Run (Step c (World.Lagging c)) (fun w act => act.frees = false ∧ Reloads c (· ≤ ·) w act) {} w) : w.Sound c False := by
  refine h.invariant .init fun u act u' hu hok hs => ?_
  exact hu.step wf (fun σ hσ st hst => hu.lagging wf hσ hst) hok.2 False.elim (fun hf => by rw [World.not_clears hok.1] at hf; cases hf) hs

/-- **One writer.** However far behind the loads of the engines are, as long as the second load of a decision
that was too large is not behind the first. -/
theorem single_writer {c : Setup} (hv : validate c.x c.fl = []) {w : World}
    (h : Run (Step c (World.Lagging c)) (fun w act => act.frees = false ∧ Reloads c (· ≤ ·) w act) {} w) :
    DecidedAlone c w.hist :=
  (Run.sound (wellFormed_of_validate hv) h).written.decidedAlone (wellFormed_of_validate hv)

/-- A decision of the flow `draftAndHold` may have three events; completing its first task takes four. -/
def lateSetup : Setup := ⟨plainExt, draftAndHold, "r1", 3, 0⟩

def heldUp : List Action :=
  [.decide 0 {} (.command startReview) 1 "", .append 0 1 true, .rest 0,
   .decide 0 {} (.command ⟨"signal-1", .signal { name := "nudge" }⟩) 2 "", .append 0 2 true, .rest 0,
   .decide 0 {} (.command completeDraft) 3 ""]

/-- The engine has found the completion too large and is about to load the state again. -/
def heldUpWorld : World := (exec (World.step lateSetup) {} heldUp).get (by decide +kernel)

/-- A replica that has not seen the signal. -/
def lateView : Store := { live := heldUpWorld.hist.take 1 }

def reloadedLate : World := (heldUpWorld.step lateSetup (.reload 0 lateView 4)).get (by decide +kernel)

def failedLate : World := (reloadedLate.step lateSetup (.append 0 3 true)).get (by decide +kernel)

theorem World.lagging_empty (c : Setup) (w : World) : w.Lagging c {} :=
  ⟨[], List.nil_prefix, ⟨0, rfl, .inl rfl⟩, fun _ h => by cases h⟩

/-- Steps that read nothing but the empty store, of commands. -/
theorem Step.of_lagging {c : Setup} {w w' : World} {act : Action} (hview : ∀ σ, act.view = some σ → σ = {})
    (hask : ∀ a, act.ask = some a → a.source = none) (hn : w.step c act = some w') : Step c (World.Lagging c) w act w' :=
  ⟨fun σ hσ => hview σ hσ ▸ w.lagging_empty c, fun a ha src hsrc => (by cases (hask a ha).symm.trans hsrc), hn⟩

theorem heldUp_run (ok : World → Action → Prop) (hok : ∀ u, ∀ a ∈ heldUp, ok u a) :
    Run (Step lateSetup (World.Lagging lateSetup)) ok {} heldUpWorld := by
  have hexec : exec (World.step lateSetup) {} heldUp = some heldUpWorld := (Option.some_get _).symm
  refine Run.of_exec .refl (fun a ha u u' hn => ⟨a, hok u a ha, ?_⟩) hexec
  simp only [heldUp, List.mem_cons, List.not_mem_nil, or_false] at ha
  rcases ha with rfl | rfl | rfl | rfl | rfl | rfl | rfl <;>
    exact Step.of_lagging (fun σ h => by cases h <;> rfl) (fun a h => by cases h <;> rfl) hn

theorem heldUp_frees (a : Action) (ha : a ∈ heldUp) : a.frees = false := by
  have hall : heldUp.all (fun a => !a.frees) = true := by decide
  simpa using List.all_eq_true.1 hall a ha

theorem heldUp_reloads (u : World) (a : Action) (ha : a ∈ heldUp) : Reloads lateSetup (· ≤ ·) u a := by
  simp only [heldUp, List.mem_cons, List.not_mem_nil, or_false] at ha
  rcases ha with rfl | rfl | rfl | rfl | rfl | rfl | rfl <;> trivial

theorem heldUpWorld_lagging (n : Nat) : heldUpWorld.Lagging lateSetup { live := heldUpWorld.hist.take n } := by
  refine ⟨heldUpWorld.hist.take n, List.take_prefix _ _, ⟨0, ?_, .inl rfl⟩, fun _ h => by cases h⟩
  have hpos : heldUpWorld.hist.all (fun m => 0 < m.seq) = true := by decide +kernel
  exact (List.filter_eq_self.2 fun m hm => List.all_eq_true.1 hpos m (List.mem_of_mem_take hm)).symm

theorem failedLate_run : Run (Step lateSetup (World.Lagging lateSetup)) (fun _ act => act.frees = false) {} failedLate := by
  have hheld := heldUp_run (fun _ act => act.frees = false) fun _ => heldUp_frees
  have hreloaded : Run _ _ {} reloadedLate := hheld.tail (a := .reload 0 lateView 4) rfl
    ⟨fun σ h => (by cases h; exact heldUpWorld_lagging 1), fun a h => (by cases h), (Option.some_get _).symm⟩
  exact hreloaded.tail (a := .append 0 3 true) rfl ⟨fun σ h => (by cases h), fun a h => (by cases h), (Option.some_get _).symm⟩

theorem World.append_hist {w w' : World} {i seq : Nat} {acked : Bool} (h : w.append i seq acked = some w') :
    w'.hist = w.hist ∨ ∃ evs, w'.hist = w.hist ++ [⟨seq, evs⟩] := by
  unfold World.append at h
  split at h
  · split at h
    · cases h; exact .inl rfl
    · split at h
      · cases h; exact .inr ⟨_, rfl⟩
      · cases h
  · cases h

/-- The failure of an older state is stored: the index of its event is taken. -/
theorem stale_abort_stored :
    validate lateSetup.x lateSetup.fl = [] ∧
    Run (Step lateSetup (World.Lagging lateSetup)) (fun _ act => act.frees = false) {} failedLate ∧
    ¬DecidedAlone lateSetup failedLate.hist := by
  have hv : validate lateSetup.x lateSetup.fl = [] := by decide +kernel
  refine ⟨hv, failedLate_run, fun halone => ?_⟩
  have wf := wellFormed_of_validate hv
  have hw := (Run.sound wf (heldUp_run _ fun u a ha => ⟨heldUp_frees a ha, heldUp_reloads u a ha⟩)).written
  obtain ⟨b, s, hp, hset⟩ := hw.path wf
  have hevents : (foldOf plainExt draftAndHold "r1" heldUpWorld.hist).toOption.any (fun s => s.events = 4) = true := by decide +kernel
  rw [show foldOf plainExt draftAndHold "r1" heldUpWorld.hist = .ok s from hp.replay] at hevents
  have hhist : ∃ evs, failedLate.hist = heldUpWorld.hist ++ [⟨3, evs⟩] := by
    have hn : reloadedLate.append 0 3 true = some failedLate := (Option.some_get _).symm
    exact (World.append_hist hn).resolve_left fun h => absurd (congrArg List.length h) (by decide +kernel)
  obtain ⟨evs, hhist⟩ := hhist
  have hindex : failedLate.hist.getLast?.any (fun m => m.events.map Event.index == [4]) = true := by decide +kernel
  rw [hhist, List.getLast?_concat] at hindex
  obtain ⟨s', req, now, trace, out, hs', hsrc, hok, hall⟩ := halone heldUpWorld.hist _ [] hhist
  cases hp.replay.symm.trans hs'
  -- a decision on the fold begins with index 5
  have hevs : evs.map Event.index = [4] := by simpa using hindex
  rw [List.forall₂_map_right_iff] at hall
  cases hall with
  | nil => cases hevs
  | @cons ev ev' evs out hfirst hrest =>
    obtain ⟨b', -, hpath, -⟩ := next_decided wf (Path.ready hp hset rfl) hsrc hok (List.cons_ne_nil _ _)
    cases hpath with
    | cons guard _ _ =>
      have hnext : ev'.index = s.events + 1 := guard.index
      have hsame : ev'.index = ev.index := show (ev'.traced trace).index = ev.index by rw [hfirst.rest]; rfl
      have hfour : ev.index = 4 := (List.cons.inj hevs).1
      have hcount : s.events = 4 := of_decide_eq_true hevents
      omega

/-- A replica that has seen the signal. -/
def timelyView : Store := { live := heldUpWorld.hist.take 2 }

def reloadedTimely : World := (heldUpWorld.step lateSetup (.reload 0 timelyView 4)).get (by decide +kernel)

def failedTimely : World := (reloadedTimely.step lateSetup (.append 0 3 true)).get (by decide +kernel)

def Stage.expected : Stage → Option Nat
  | .tooLarge expected _ _ _ _ => some expected
  | _ => none

theorem timely_reloads : Reloads lateSetup (· ≤ ·) heldUpWorld (.reload 0 timelyView 4) := by
  have hload : (timelyView.load plainExt draftAndHold "r1" 0).toOption.all (fun st => 2 ≤ st.lastSeq) = true ∧
      (heldUpWorld.engines 0).stage.expected = some 2 := by decide +kernel
  simp only [Reloads]
  split
  · rename_i hst
    rw [hst] at hload
    cases hload.2
    intro st hst
    have hle := hload.1
    rw [show timelyView.load plainExt draftAndHold "r1" 0 = .ok st from hst] at hle
    exact of_decide_eq_true hle
  · trivial

/-- The failure of the state as it is, decided alone. -/
theorem heldUp_alone : failedTimely.hist.length = 3 ∧ DecidedAlone lateSetup failedTimely.hist := by
  have hheld := heldUp_run (fun w act => act.frees = false ∧ Reloads lateSetup (· ≤ ·) w act) fun u a ha =>
    ⟨heldUp_frees a ha, heldUp_reloads u a ha⟩
  have hreloaded : Run _ _ {} reloadedTimely := hheld.tail (a := Action.reload 0 timelyView 4) ⟨rfl, timely_reloads⟩
    ⟨fun σ h => (by cases h; exact heldUpWorld_lagging 2), fun a h => (by cases h), (Option.some_get _).symm⟩
  have hfailed : Run _ _ {} failedTimely := hreloaded.tail (a := Action.append 0 3 true) ⟨rfl, trivial⟩
    ⟨fun σ h => (by cases h), fun a h => (by cases h), (Option.some_get _).symm⟩
  exact ⟨by decide +kernel, single_writer (by decide +kernel) hfailed⟩

end Packtrail
