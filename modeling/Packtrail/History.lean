import Packtrail.Forks

/-
# Histories

A history is the list of the decisions ever stored for an execution (`Written`): each was decided on a
state with the encoding of the fold of those before it, and stored under a later sequence. What is left
of it in the live log, in the archive and in the snapshot is up to the store (`Shows`).

**`load_is_fold`**: whatever was purged, archived and snapshotted, `Load` returns the fold of the events
up to the sequence it is asked for.
-/

namespace Packtrail

open Replay Emitter

/-! ## Lists sorted by a key -/

/-- A list sorted by `f` splits at every bound. -/
theorem filter_lt_append_filter_ge {α : Type} {f : α → Nat} (b : Nat) {l : List α} (h : l.Pairwise fun a a' => f a ≤ f a') :
    l.filter (fun a => f a < b) ++ l.filter (fun a => b ≤ f a) = l := by
  induction l with
  | nil => rfl
  | cons a l ih =>
    obtain ⟨hle, hl⟩ := List.pairwise_cons.1 h
    by_cases ha : f a < b
    · simp only [List.filter_cons, ha, decide_true, if_true, List.cons_append, show ¬b ≤ f a by omega, decide_false]
      simpa using ih hl
    · have hnone : l.filter (fun a => f a < b) = [] := by
        refine List.filter_eq_nil_iff.2 fun a' ha' => ?_
        have := hle a' ha'
        simp only [decide_eq_true_eq]
        omega
      have hall : l.filter (fun a => b ≤ f a) = l := by
        refine List.filter_eq_self.2 fun a' ha' => ?_
        have := hle a' ha'
        simp only [decide_eq_true_eq]
        omega
      simp only [List.filter_cons, ha, decide_false, Bool.false_eq_true, if_false, hnone, show b ≤ f a by omega, decide_true,
        if_true, hall, List.nil_append]

/-- Taking while the key is small takes all of them. -/
theorem takeWhile_eq_filter {α : Type} {f : α → Nat} {p : Nat → Bool} (hp : ∀ a b, a ≤ b → p b = true → p a = true) {l : List α}
    (h : l.Pairwise fun a a' => f a ≤ f a') : (l.takeWhile fun a => p (f a)) = l.filter fun a => p (f a) := by
  induction l with
  | nil => rfl
  | cons a l ih =>
    obtain ⟨hle, hl⟩ := List.pairwise_cons.1 h
    cases ha : p (f a) with
    | true => simp only [List.takeWhile_cons, List.filter_cons, ha, if_true, ih hl]
    | false =>
      have hnone : l.filter (fun a => p (f a)) = [] := by
        refine List.filter_eq_nil_iff.2 fun a' ha' hpa => ?_
        rw [hp _ _ (hle a' ha') hpa] at ha
        cases ha
      simp only [List.takeWhile_cons, List.filter_cons, ha, Bool.false_eq_true, if_false, hnone]

theorem within_mono {upTo a b : Nat} (hab : a ≤ b) (h : within upTo b = true) : within upTo a = true := by
  simp only [within, Bool.or_eq_true, decide_eq_true_eq] at h ⊢
  omega

/-! ## Histories -/

/-- The events of stored messages, as they are read. -/
def eventsOf (hist : List Message) : List Event := hist.flatMap Message.decode

theorem eventsOf_append (h₁ h₂ : List Message) : eventsOf (h₁ ++ h₂) = eventsOf h₁ ++ eventsOf h₂ := List.flatMap_append

theorem eventsOf_singleton (m : Message) : eventsOf [m] = m.decode := by simp [eventsOf]

/-- The fold of stored messages. -/
def foldOf (x : Ext) (fl : Flow) (execID : String) (hist : List Message) : Except Err State :=
  replay (applySeq x fl) (State.new execID) (eventsOf hist)

/-- The engine stamps the trace of the command on what it decided. -/
def Event.traced (trace : String) (ev : Event) : Event := { ev with trace }

/-- A continuation names its segment after the execution (`engine.go:597-601`). -/
def Request.NamesSegment (execID : String) : Request → Prop
  | .continueAsNew seg _ => ∃ first, seg.object = segmentObject execID first
  | _ => True

inductive Written (x : Ext) (fl : Flow) (execID : String) : List Message → Prop
  | nil : Written x fl execID []
  | append {hist : List Message} {s s' : State} {evs : List Event} {seq : Nat} (h : Written x fl execID hist)
      (hs : foldOf x fl execID hist = .ok s) (hm : s'.marshal = s.marshal) (req : Request) (now : Time)
      (hsrc : req.Sourced x fl) (hseg : req.NamesSegment execID) (hok : (req.perform x fl s' now).result = .ok evs)
      (hne : evs ≠ []) (hseq : s.lastSeq < seq) (trace : String) : Written x fl execID (hist ++ [⟨seq, evs.map (Event.traced trace)⟩])

theorem Written.of_prefix {x : Ext} {fl : Flow} {execID : String} {pre hist : List Message} (hw : Written x fl execID hist)
    (hpre : pre <+: hist) : Written x fl execID pre := by
  induction hw with
  | nil => rw [List.prefix_nil.1 hpre]; exact .nil
  | append h hs hm req now hsrc hseg hok hne hseq trace ih =>
    rcases List.prefix_concat_iff.1 hpre with rfl | hpre
    · exact h.append hs hm req now hsrc hseg hok hne hseq trace
    · exact ih hpre

/-- What a stored event keeps to in the fold of those before it. -/
structure Stored (fl : Flow) (base : Nat) (s : State) (ev : Event) : Prop where
  promise : Promise fl base s ev
  carried : ∀ d, ev.data = .continued d → d.state = ({ s.encoded with segments := s.segments ++ [d.segment] } : State).marshal
  ordered : s.lastSeq ≤ ev.seq
  pos : 0 < ev.seq

/-- Event `ev'` is `ev` as read from sequence `seq`. -/
structure Event.Stamps (seq : Nat) (ev ev' : Event) : Prop where
  time : ev'.time = ev.time
  index : ev'.index = ev.index
  data : ev'.data = ev.data
  seq : ev'.seq = seq

theorem Event.stamps_markEnd {seq : Nat} {evs evs' : List Event} (h : List.Forall₂ (Event.Stamps seq) evs evs') :
    List.Forall₂ (Event.Stamps seq) evs (markEnd evs') := by
  induction h with
  | nil => exact .nil
  | @cons ev ev' evs evs' hev _ ih =>
    cases evs' with
    | nil => exact .cons ⟨hev.time, hev.index, hev.data, hev.seq⟩ ih
    | cons e es => exact .cons hev ih

theorem Message.stamps (seq : Nat) (trace : String) (evs : List Event) :
    List.Forall₂ (Event.Stamps seq) evs (Message.decode ⟨seq, evs.map (Event.traced trace)⟩) := by
  refine Event.stamps_markEnd ?_
  rw [List.map_map]
  induction evs with
  | nil => exact .nil
  | cons ev evs ih => exact .cons ⟨rfl, rfl, rfl, rfl⟩ ih

/-- An event that is read was written. -/
theorem Message.mem_decode {seq : Nat} {trace : String} {evs : List Event} {ev : Event}
    (hev : ev ∈ Message.decode ⟨seq, evs.map (Event.traced trace)⟩) : ∃ e ∈ evs, Event.Stamps seq e ev := by
  have hstamps := Message.stamps seq trace evs
  obtain ⟨i, hi, hget⟩ := List.getElem_of_mem hev
  have hlen := hstamps.length_eq
  refine ⟨evs.get ⟨i, by omega⟩, List.get_mem _ _, ?_⟩
  rw [← hget]
  exact hstamps.get (by omega) hi

section
variable {x : Ext} {fl : Flow} {base : Nat} {s s' t : State} {evs : List Event}

variable {seq : Nat} {ev ev' : Event} {req : Request} {execID : String} {hist : List Message}

theorem State.apply_stamps {quote : String → String} (h : Event.Stamps seq ev ev') (s : State) :
    s.apply quote fl ev' = s.apply quote fl ev := by
  obtain ⟨time, index, cmdID, data, trace, q, e⟩ := ev
  obtain ⟨time', index', cmdID', data', trace', q', e'⟩ := ev'
  obtain ⟨ht, hi, hd, -⟩ := h
  cases ht; cases hi; cases hd
  rfl

theorem applySeq_stamps (h : Event.Stamps seq ev ev') {s t : State}
    (ha : s.apply x.quote fl ev = .ok t) : applySeq x fl s ev' = .ok { t with lastSeq := seq } := by
  unfold applySeq
  rw [State.apply_stamps h, ha, h.seq]
  rfl

theorem Promise.stamps (h : Event.Stamps seq ev ev') (hp : Promise fl base s ev) : Promise fl base s ev' :=
  ⟨h.index ▸ hp.index, hp.unended, h.data ▸ hp.begins, h.data ▸ hp.offer⟩

theorem State.alike_stored (s : State) (seq : Nat) : s.Alike { s with lastSeq := seq } := rfl

theorem State.alike_of_marshal (h : s.marshal = s'.marshal) : s.Alike s' := by
  have h : s.encoded = s'.encoded := congrArg Encoding.decoded h
  exact congrArg State.forget h

/-- A decision without a continuation, as it is stored. -/
theorem Path.stored (hpos : 0 < seq)
    (hp : Path (State.apply x.quote fl) (fun s ev => Promise fl base s ev ∧ ev.data.isContinued = false) s evs t)
    {evs' : List Event} (hst : List.Forall₂ (Event.Stamps seq) evs evs') (ha : s.Alike s') (hle : s'.lastSeq ≤ seq) :
    ∃ t', Path (applySeq x fl) (Stored fl base) s' evs' t' ∧ t.Alike t' := by
  induction hp generalizing s' evs' with
  | nil s =>
    cases hst
    exact ⟨s', .nil s', ha⟩
  | @cons s s₁ t ev evs guard ok _ ih =>
    cases hst with
    | @cons _ ev' _ evs' hev hrest =>
      obtain ⟨s₁', ok', ha'⟩ := ha.apply ok
      obtain ⟨t', hp', ht⟩ := ih hrest (ha'.trans (State.alike_stored s₁' seq)) le_rfl
      refine ⟨t', .cons ⟨(guard.1.alike ha).stamps hev, fun d hd => ?_, by rw [hev.seq]; exact hle, by rw [hev.seq]; exact hpos⟩
        (applySeq_stamps hev ok') hp', ht⟩
      rw [hev.data] at hd
      have := guard.2
      rw [hd] at this
      cases this

/-- A decision on a state that was reloaded, as it is stored. -/
theorem perform_stored (hpos : 0 < seq) (hm : s.marshal = s'.marshal)
    (hp : Path (State.apply x.quote fl) (Promise fl base) s evs t)
    (hkind : req.Continues s evs ∨ ∀ ev ∈ evs, ev.data.isContinued = false)
    {evs' : List Event} (hst : List.Forall₂ (Event.Stamps seq) evs evs') (hle : s'.lastSeq ≤ seq) :
    ∃ t', Path (applySeq x fl) (Stored fl base) s' evs' t' ∧ t.Alike t' := by
  have ha := State.alike_of_marshal hm
  rcases hkind with ⟨seg, cmdID, ev, -, rfl, hd⟩ | hplain
  · cases hp with
    | cons guard ok rest =>
      obtain rfl := rest.eq_of_nil
      cases hst with
      | @cons _ ev' _ _ hev hnil =>
        cases hnil
        obtain ⟨t', ok', ha'⟩ := ha.apply ok
        refine ⟨_, .single ⟨(guard.alike ha).stamps hev, fun d hd' => ?_, by rw [hev.seq]; exact hle, by rw [hev.seq]; exact hpos⟩
          (applySeq_stamps hev ok'), ha'.trans (State.alike_stored t' seq)⟩
        rw [hev.data, hd] at hd'
        cases hd'
        have henc : s.encoded = s'.encoded := congrArg Encoding.decoded hm
        have hseg : s.segments = s'.segments := show s.encoded.segments = s'.encoded.segments by rw [henc]
        rw [henc, hseg]
  · exact Path.stored hpos (hp.and_all hplain) hst ha hle

/-- The next decision of a history. -/
theorem next_decided (wf : WellFormed fl) {now : Time}
    (h : s.Absent ∨ Settled fl base s) (hsrc : req.Sourced x fl) (hok : (req.perform x fl s now).result = .ok evs) (hne : evs ≠ []) :
    ∃ b, (s.Absent ∨ b = base) ∧ Path (State.apply x.quote fl) (Promise fl b) s evs (req.perform x fl s now).state ∧
    Settled fl b (req.perform x fl s now).state ∧ (req.Continues s evs ∨ ∀ ev ∈ evs, ev.data.isContinued = false) := by
  rcases h with habs | hset
  · obtain ⟨b, hd⟩ := perform_absent (x := x) wf habs req (hsrc.ok wf) now
    obtain ⟨hpath, hset⟩ := hd.wrote hok hne
    exact ⟨b, .inl habs, hpath, hset, .inr (first_uncontinued wf habs (hsrc.ok wf) hok)⟩
  · obtain ⟨hpath, hset'⟩ := (perform_settled (x := x) wf hset req now).wrote hok hne
    refine ⟨base, .inr rfl, hpath, hset', ?_⟩
    rcases perform_lists hok hset.exists with h | ⟨_, hl⟩
    · exact .inl h
    · exact .inr (hl.all fun _ _ h => Payload.uncontinued h.2.2)

/-- What a decision may be taken on after a history. -/
theorem Path.ready
    (hp : Path (applySeq x fl) (Stored fl base) (State.new execID) (eventsOf hist) s) (hset : hist = [] ∨ Settled fl base s)
    (hm : s'.marshal = s.marshal) : s'.Absent ∨ Settled fl base s' := by
  have ha := State.alike_of_marshal hm
  rcases hset with rfl | hset
  · cases hp
    exact .inl ((State.absent_new execID).alike ha.symm)
  · exact .inr (hset.alike ha.symm)

/-- A decision on a state that encodes as the fold, stored after it. -/
theorem Path.extend (wf : WellFormed fl) {now : Time}
    (hp : Path (applySeq x fl) (Stored fl base) (State.new execID) (eventsOf hist) s) (hset : hist = [] ∨ Settled fl base s)
    (hm : s'.marshal = s.marshal) (hsrc : req.Sourced x fl) (hok : (req.perform x fl s' now).result = .ok evs) (hne : evs ≠ [])
    (hseq : s.lastSeq < seq) (trace : String) :
    ∃ b t, Path (applySeq x fl) (Stored fl b) (State.new execID) (eventsOf (hist ++ [⟨seq, evs.map (Event.traced trace)⟩])) t ∧
    Settled fl b t ∧ (req.perform x fl s' now).state.Alike t := by
  have ha := State.alike_of_marshal hm
  obtain ⟨b, hb, hpath, hset', hkind⟩ := next_decided wf (Path.ready hp hset hm) hsrc hok hne
  obtain ⟨t, ht, hat⟩ := perform_stored (by omega) hm hpath hkind (Message.stamps seq trace evs) hseq.le
  refine ⟨b, t, ?_, hset'.alike hat, hat⟩
  rw [eventsOf_append, eventsOf_singleton]
  rcases hb with habs | rfl
  · -- nothing was stored before an execution exists
    have hnil : hist = [] := hset.resolve_right fun hset => by
      have := (hset.alike ha.symm).exists
      rw [habs.not_exists] at this
      cases this
    subst hnil
    cases hp
    exact ht
  · exact hp.append ht

/-- **A history folds**, each of its events keeping to what its decision promised. -/
theorem Written.path (wf : WellFormed fl) (h : Written x fl execID hist) :
    ∃ base s, Path (applySeq x fl) (Stored fl base) (State.new execID) (eventsOf hist) s ∧ (hist = [] ∨ Settled fl base s) := by
  induction h with
  | nil => exact ⟨0, _, .nil _, .inl rfl⟩
  | append h hs hm req now hsrc hseg hok hne hseq trace ih =>
    obtain ⟨b, s₀, hp, hset⟩ := ih
    cases hs.symm.trans hp.replay
    obtain ⟨b', t, ht, hset', -⟩ := Path.extend wf hp hset hm hsrc hok hne hseq trace
    exact ⟨b', t, ht, .inr hset'⟩

theorem Written.names_segments (wf : WellFormed fl) (h : Written x fl execID hist) :
    ∀ ev ∈ eventsOf hist, ∀ d, ev.data = .continued d → ∃ first, d.segment.object = segmentObject execID first := by
  induction h with
  | nil => exact fun _ hev => (List.not_mem_nil hev).elim
  | @append hist s s' evs seq h hs hm req now hsrc hseg hok hne hseq trace ih =>
    intro ev hev d hd
    rw [eventsOf_append, eventsOf_singleton] at hev
    rcases List.mem_append.1 hev with hev | hev
    · exact ih ev hev d hd
    · obtain ⟨b, s₀, hp, hset⟩ := h.path wf
      cases hs.symm.trans hp.replay
      obtain ⟨_, -, -, -, hkind⟩ := next_decided wf (Path.ready hp hset hm) hsrc hok hne
      obtain ⟨e, he, hst⟩ := Message.mem_decode hev
      rw [hst.data] at hd
      rcases hkind with ⟨seg, cmdID, e', rfl, rfl, hdata⟩ | hplain
      · rw [List.mem_singleton.1 he, hdata] at hd
        cases hd
        exact hseg
      · have := hplain e he
        rw [hd] at this
        cases this

end

/-! ## What a history is like -/

/-- The events stored so far and the state they fold to. -/
structure Chronicle (l : List Event) (s : State) : Prop where
  count : s.events = l.length
  index : ∀ ev ∈ l, ev.index ≤ s.events
  indexed : l.Pairwise fun a b => a.index ≤ b.index
  seq : ∀ ev ∈ l, ev.seq ≤ s.lastSeq ∧ 0 < ev.seq
  sorted : l.Pairwise fun a b => a.seq ≤ b.seq
  last : s.lastSeq = (l.getLast?.map Event.seq).getD 0

section
variable {x : Ext} {fl : Flow} {base : Nat} {s t : State} {l : List Event} {ev : Event} {execID : String}

theorem applySeq_ok : applySeq x fl s ev = .ok t ↔ ∃ u, s.apply x.quote fl ev = .ok u ∧ t = { u with lastSeq := ev.seq } := by
  unfold applySeq
  cases s.apply x.quote fl ev with
  | error e => simp [Except.map]
  | ok u => simp [Except.map, eq_comm]

theorem Chronicle.new (execID : String) : Chronicle [] (State.new execID) where
  count := rfl
  index _ h := (List.not_mem_nil h).elim
  indexed := .nil
  seq _ h := (List.not_mem_nil h).elim
  sorted := .nil
  last := rfl

theorem Chronicle.step (h : Chronicle l s) (hst : Stored fl base s ev) (ha : applySeq x fl s ev = .ok t) :
    Chronicle (l ++ [ev]) t := by
  obtain ⟨u, hu, rfl⟩ := applySeq_ok.1 ha
  have hev : u.events = s.events + 1 := hst.promise.events hu
  have hindex := hst.promise.index
  have hmem : ∀ {P : Event → Prop}, (∀ e ∈ l, P e) → P ev → ∀ e ∈ l ++ [ev], P e := by
    intro P hl hp e he
    rcases List.mem_append.1 he with he | he
    · exact hl e he
    · rw [List.mem_singleton.1 he]
      exact hp
  refine ⟨by simp [hev, h.count], hmem (fun e he => ?_) ?_, ?_, hmem (fun e he => ?_) ?_, ?_, by simp⟩
  · exact (h.index e he).trans (hev ▸ Nat.le_succ _)
  · exact (hindex.trans hev.symm).le
  · refine List.pairwise_append.2 ⟨h.indexed, List.pairwise_singleton _ _, fun a ha b hb => ?_⟩
    rw [List.mem_singleton.1 hb, hindex]
    exact (h.index a ha).trans (Nat.le_succ _)
  · exact ⟨(h.seq e he).1.trans hst.ordered, (h.seq e he).2⟩
  · exact ⟨le_rfl, hst.pos⟩
  · refine List.pairwise_append.2 ⟨h.sorted, List.pairwise_singleton _ _, fun a ha b hb => ?_⟩
    rw [List.mem_singleton.1 hb]
    exact (h.seq a ha).1.trans hst.ordered

theorem Path.chronicle (hp : Path (applySeq x fl) (Stored fl base) (State.new execID) l s) : Chronicle l s := by
  have := hp.logInvariant (I := Chronicle) (fun _ _ _ _ h hG ha => h.step hG ha) (Chronicle.new execID)
  simpa using this

/-- A continuation and a fork bring their own state. -/
theorem applySeq_base (hb : ev.data.isBase = true) (hst : ∀ d, ev.data ≠ .started d) (s s' : State) :
    applySeq x fl s ev = applySeq x fl s' ev := by
  obtain ⟨time, index, cmdID, data, trace, q, e⟩ := ev
  cases data <;> first | cases hb; done | exact absurd rfl (hst _) | rfl

/-- The fold can begin at every event that bases a state. -/
theorem Path.from_base {pre post : List Event} (hp : Path (applySeq x fl) (Stored fl base) (State.new execID) (pre ++ ev :: post) t)
    (hb : ev.data.isBase = true) : replay (applySeq x fl) (State.new execID) (ev :: post) = .ok t := by
  obtain ⟨s, hpre, hrest⟩ := hp.split
  by_cases hst : ∃ d, ev.data = .started d
  · obtain ⟨d, hd⟩ := hst
    cases hrest with
    | cons guard ok rest =>
      have hzero : s.events = 0 := guard.promise.begins.1 (by rw [hd]; rfl)
      have hnil : pre = [] := List.eq_nil_of_length_eq_zero ((Path.chronicle hpre).count.symm.trans hzero)
      subst hnil
      exact hp.replay
  · have := hrest.replay
    simp only [replay] at this ⊢
    rwa [applySeq_base hb (fun d hd => hst ⟨d, hd⟩) (State.new execID) s]

end

/-! ## Segments -/

/-- Each object named by a continuation of the history holds the events it archived: those from the last
continuation on. -/
def Archives (x : Ext) (fl : Flow) (execID : String) (l : List Event) (objects : SMap (List Event)) : Prop :=
  ∀ pre ev post d s, l = pre ++ ev :: post → ev.data = .continued d → replay (applySeq x fl) (State.new execID) pre = .ok s →
    objects[d.segment.object]? = some (pre.filter fun e => s.base ≤ e.index)

section
variable {x : Ext} {fl : Flow} {base : Nat} {s t : State} {l : List Event} {ev : Event} {execID : String}
variable {objects : SMap (List Event)}

variable {evs : List Event}

theorem readSegments_append {segs : List Segment} {seg : Segment} {part : List Event}
    (h : readSegments objects segs = .ok evs) (hpart : objects[seg.object]? = some part) :
    readSegments objects (segs ++ [seg]) = .ok (evs ++ part) := by
  induction segs generalizing evs with
  | nil =>
    cases h
    simp [readSegments, hpart, Except.map]
  | cons seg' segs ih =>
    simp only [readSegments, List.cons_append] at h ⊢
    cases hobj : objects[seg'.object]? with
    | none => rw [hobj] at h; cases h
    | some part' =>
      rw [hobj] at h
      simp only at h ⊢
      cases hr : readSegments objects segs with
      | error e => rw [hr] at h; cases h
      | ok rest =>
        rw [hr] at h
        cases h
        rw [ih hr]
        simp [Except.map]

/-- The base and the segments of a state: only a fork and a continuation set them. -/
theorem apply_segments {u : State} (ha : s.apply x.quote fl ev = .ok u) :
    (u.base = s.base ∧ u.segments = s.segments ∧ ev.data.isContinued = false) ∨ (u.base = 0 ∧ u.segments = [] ∧ ∃ d, ev.data = .forked d) ∨
    ∃ d, ev.data = .continued d ∧ u.base = ev.index ∧ u.segments = (unmarshal d.state).segments := by
  obtain ⟨-, s₁, hs₁, rfl⟩ := State.apply_ok.1 ha
  have hself := State.dressAfter_self hs₁
  cases hd : ev.data <;> rw [hd] at hself <;> first
    | exact .inl ⟨(congrArg State.base hself).symm, (congrArg State.segments hself).symm, rfl⟩
    | unfold State.applyData at hs₁
  case forked d =>
    rw [hd] at hs₁
    cases hs₁
    exact .inr (.inl ⟨rfl, rfl, d, rfl⟩)
  case continued d =>
    rw [hd] at hs₁
    cases hs₁
    exact .inr (.inr ⟨d, rfl, rfl, rfl⟩)

/-- Objects of a longer history. -/
theorem Archives.nil : Archives x fl execID [] objects := by
  intro pre ev post d s hl
  cases pre <;> cases hl

theorem Archives.append {l : List Event} (h : Archives x fl execID l objects)
    (hev : ∀ pre ev post d s, evs = pre ++ ev :: post → ev.data = .continued d →
    replay (applySeq x fl) (State.new execID) (l ++ pre) = .ok s →
    objects[d.segment.object]? = some ((l ++ pre).filter fun e => s.base ≤ e.index)) : Archives x fl execID (l ++ evs) objects := by
  intro pre ev post d s hl hd hs
  rcases List.append_eq_append_iff.1 hl with ⟨pre', rfl, hevs⟩ | ⟨l', rfl, hevs⟩
  · exact hev pre' ev post d s hevs hd hs
  · cases l' with
    | nil => simpa using hev [] ev post d s hevs.symm hd (by simpa using hs)
    | cons e l' =>
      cases hevs
      exact h pre ev l' d s rfl hd hs

theorem Archives.append_plain {l : List Event} (h : Archives x fl execID l objects)
    (hp : evs.any (fun ev => ev.data.isContinued) = false) : Archives x fl execID (l ++ evs) objects := by
  refine h.append fun pre ev post d s hevs hd _ => ?_
  have := List.any_eq_false.1 hp ev (by rw [hevs]; simp)
  rw [hd] at this
  exact absurd rfl this

theorem Archives.append_continued {l : List Event} (h : Archives x fl execID l objects) {d : Event.Continued}
    (hd : ev.data = .continued d) (hs : replay (applySeq x fl) (State.new execID) l = .ok s)
    (hobj : objects[d.segment.object]? = some (l.filter fun e => s.base ≤ e.index)) : Archives x fl execID (l ++ [ev]) objects := by
  refine h.append fun pre ev' post d' s' hevs hd' hs' => ?_
  cases pre with
  | nil =>
    cases hevs
    cases hd.symm.trans hd'
    rw [List.append_nil] at hs' ⊢
    cases hs.symm.trans hs'
    exact hobj
  | cons e pre => exact absurd (List.cons.inj hevs).2 (by simp)

/-- A continuation adds what its own segment holds. -/
theorem segments_carried {pre : List Event} {d : Event.Continued} (hc : Chronicle pre s)
    (hread : readSegments objects s.segments = .ok (pre.filter fun e => e.index < s.base))
    (hpart : objects[d.segment.object]? = some (pre.filter fun e => s.base ≤ e.index))
    (hd : d.state = ({ s.encoded with segments := s.segments ++ [d.segment] } : State).marshal) :
    readSegments objects (unmarshal d.state).segments = .ok pre := by
  rw [hd]
  show readSegments objects (s.segments ++ [d.segment]) = _
  rw [readSegments_append hread hpart, filter_lt_append_filter_ge s.base hc.indexed]

/-- The segments of a state hold the events before its last continuation. -/
theorem Path.segments {pre post : List Event} {s : State} (hobj : Archives x fl execID (pre ++ post) objects)
    (hp : Path (applySeq x fl) (Stored fl base) (State.new execID) pre s) :
    readSegments objects s.segments = .ok (pre.filter fun e => e.index < s.base) ∧ s.base ≤ s.events := by
  induction pre using List.reverseRecOn generalizing post s with
  | nil =>
    cases hp
    exact ⟨rfl, le_rfl⟩
  | append_singleton pre ev ih =>
    obtain ⟨s₀, hpre, hlast⟩ := hp.split
    have hc := Path.chronicle hpre
    obtain ⟨hread, hbase⟩ := @ih (ev :: post) s₀ (by simpa using hobj) hpre
    cases hlast with
    | cons guard ok rest =>
      obtain rfl := rest.eq_of_nil
      obtain ⟨u, hu, rfl⟩ := applySeq_ok.1 ok
      have hevents : u.events = s₀.events + 1 := guard.promise.events hu
      have hindex := guard.promise.index
      show readSegments objects u.segments = .ok ((pre ++ [ev]).filter fun e => e.index < u.base) ∧ u.base ≤ u.events
      rcases apply_segments hu with ⟨hb, hs, -⟩ | ⟨hb, hs, -⟩ | ⟨d, hd, hb, hs⟩
      · have hnew : ¬ev.index < s₀.base := by omega
        rw [hb, hs, hevents, List.filter_append, hread]
        exact ⟨by simp [hnew], hbase.trans (Nat.le_succ _)⟩
      · rw [hb, hs]
        simp [readSegments]
      · have hpart := hobj pre ev post d s₀ (by simp) hd hpre.replay
        have hall : pre.filter (fun e => e.index < s₀.events + 1) = pre := by
          refine List.filter_eq_self.2 fun e he => ?_
          have := hc.index e he
          simp only [decide_eq_true_eq]
          omega
        rw [hs, hb, segments_carried hc hread hpart (guard.carried d hd), List.filter_append, hindex, hall]
        exact ⟨by simp [hindex], hevents.ge⟩

theorem lastWhere_none {α : Type} {p : α → Bool} {l : List α} (h : lastWhere p l = none) : ∀ a ∈ l, p a = false := by
  induction l with
  | nil => exact fun _ ha => (List.not_mem_nil ha).elim
  | cons a l ih =>
    simp only [lastWhere] at h
    cases hl : lastWhere p l with
    | some i => rw [hl] at h; cases h
    | none =>
      rw [hl] at h
      cases ha : p a with
      | true => simp [ha] at h
      | false =>
        intro b hb
        rcases List.mem_cons.1 hb with rfl | hb
        · exact ha
        · exact ih hl b hb

theorem lastWhere_some {α : Type} {p : α → Bool} {l : List α} {i : Nat} (h : lastWhere p l = some i) :
    ∃ pre a post, l = pre ++ a :: post ∧ l.drop i = a :: post ∧ p a = true ∧ ∀ b ∈ post, p b = false := by
  induction l generalizing i with
  | nil => cases h
  | cons a l ih =>
    simp only [lastWhere] at h
    cases hl : lastWhere p l with
    | some j =>
      rw [hl] at h
      cases h
      obtain ⟨pre, b, post, rfl, hdrop, hb, hpost⟩ := ih hl
      exact ⟨a :: pre, b, post, rfl, hdrop, hb, hpost⟩
    | none =>
      rw [hl] at h
      cases ha : p a with
      | false => simp [ha] at h
      | true =>
        simp only [ha, if_true, Option.some.injEq] at h
        subst h
        exact ⟨[], a, l, rfl, rfl, ha, lastWhere_none hl⟩

/-- The segments and the live log make up the whole history. -/
theorem Path.withSegments {dropped live : List Event}
    (hp : Path (applySeq x fl) (Stored fl base) (State.new execID) (dropped ++ live) s)
    (hobj : Archives x fl execID (dropped ++ live) objects)
    (hkeep : dropped = [] ∨ ∃ ev ∈ live, ev.data.isContinued = true) : withSegments objects live = .ok (dropped ++ live) := by
  unfold Packtrail.withSegments
  cases hlast : lastWhere (fun ev : Event => ev.data.isContinued) live with
  | none =>
    have hnone := lastWhere_none hlast
    rcases hkeep with rfl | ⟨ev, hev, hc⟩
    · rfl
    · rw [hnone ev hev] at hc
      cases hc
  | some i =>
    obtain ⟨pre, ev, post, rfl, hdrop, hc, -⟩ := lastWhere_some hlast
    simp only [hdrop]
    cases hd : ev.data <;> rw [hd] at hc <;> first | cases hc; done | skip
    rename_i d
    have hsplit : dropped ++ (pre ++ ev :: post) = (dropped ++ pre) ++ ev :: post := (List.append_assoc _ _ _).symm
    rw [hsplit] at hp hobj ⊢
    obtain ⟨s₀, hpre, hrest⟩ := hp.split
    cases hrest with
    | cons guard ok _ =>
      obtain ⟨hread, -⟩ := Path.segments hobj hpre
      have hpart := hobj (dropped ++ pre) ev post d s₀ rfl hd hpre.replay
      show (readSegments objects (unmarshal d.state).segments).map (· ++ ev :: post) = _
      rw [segments_carried (Path.chronicle hpre) hread hpart (guard.carried d hd)]
      rfl

end

/-! ## Reading -/

theorem markEnd_seq {q : Nat} {evs : List Event} (h : ∀ ev ∈ evs, ev.seq = q) : ∀ ev ∈ markEnd evs, ev.seq = q := by
  induction evs with
  | nil => exact h
  | cons e es ih =>
    cases es with
    | nil => simpa [markEnd] using h
    | cons e' es =>
      intro ev hev
      rcases List.mem_cons.1 hev with rfl | hev
      · exact h _ List.mem_cons_self
      · exact ih (fun ev hev => h ev (List.mem_cons_of_mem _ hev)) ev hev

theorem Message.decode_seq (m : Message) : ∀ ev ∈ m.decode, ev.seq = m.seq :=
  markEnd_seq fun ev hev => by
    obtain ⟨e, -, rfl⟩ := List.mem_map.1 hev
    rfl

/-- Selecting messages by their sequence selects their events. -/
theorem eventsOf_filter (p : Nat → Bool) (hist : List Message) :
    eventsOf (hist.filter fun m => p m.seq) = (eventsOf hist).filter fun ev => p ev.seq := by
  induction hist with
  | nil => rfl
  | cons m hist ih =>
    have hm : m.decode.filter (fun ev => p ev.seq) = if p m.seq then m.decode else [] := by
      split
      · rename_i hp
        exact List.filter_eq_self.2 fun ev hev => by rw [m.decode_seq ev hev, hp]
      · rename_i hp
        exact List.filter_eq_nil_iff.2 fun ev hev => by rw [m.decode_seq ev hev]; exact hp
    have hcons : ∀ l : List Message, eventsOf (m :: l) = m.decode ++ eventsOf l := fun l => List.flatMap_cons
    rw [List.filter_cons, hcons, List.filter_append, hm, ← ih]
    split
    · exact hcons _
    · rfl

theorem readLog_eq {hist : List Message} (hs : (eventsOf hist).Pairwise fun a b => a.seq ≤ b.seq) (c start upTo : Nat) :
    readLog (hist.filter fun m => c < m.seq) start upTo =
      (eventsOf hist).filter fun ev => (Decidable.decide (c < ev.seq) && Decidable.decide (start ≤ ev.seq)) && within upTo ev.seq := by
  have hlive : ((hist.filter fun m => c < m.seq).filter fun m => start ≤ m.seq).flatMap Message.decode =
      (eventsOf hist).filter fun ev => Decidable.decide (c < ev.seq) && Decidable.decide (start ≤ ev.seq) := by
    rw [List.filter_filter]
    refine Eq.trans ?_ (eventsOf_filter (fun q => Decidable.decide (c < q) && Decidable.decide (start ≤ q)) hist)
    simp only [eventsOf, Bool.and_comm]
  unfold readLog
  rw [hlive, takeWhile_eq_filter (f := Event.seq) (p := within upTo) (fun a b => within_mono) (hs.sublist List.filter_sublist),
    List.filter_filter]
  simp only [Bool.and_comm]

/-! ## Loading -/

/-- What purges leave of a history: all of it, or what comes after some sequence, with a continuation. -/
def Retains (hist live : List Message) : Prop :=
  ∃ c, live = hist.filter (fun m => c < m.seq) ∧ (c = 0 ∨ ∃ ev ∈ eventsOf live, ev.data.isContinued = true)

/-- What a store may show of history `hist`: any live log that purges leave, the segments of its
continuations, and the fold of some of its first decisions as a snapshot. -/
structure Shows (x : Ext) (fl : Flow) (execID : String) (hist : List Message) (σ : Store) : Prop where
  live : Retains hist σ.live
  objects : Archives x fl execID (eventsOf hist) σ.objects
  snapshot : ∀ b, σ.snapshot = some b → ∃ pre post s, hist = pre ++ post ∧ foldOf x fl execID pre = .ok s ∧ b = s.marshal

section
variable {x : Ext} {fl : Flow} {execID : String} {hist : List Message} {base upTo c : Nat} {s : State} {l : List Event}

theorem within_split (hs : l.Pairwise fun a b => a.seq ≤ b.seq) (upTo : Nat) :
    ∃ rest, l = (l.filter fun ev => within upTo ev.seq) ++ rest := by
  by_cases h : upTo = 0
  · refine ⟨[], ?_⟩
    rw [List.append_nil, List.filter_eq_self.2 fun ev _ => by simp [within, h]]
  · refine ⟨l.filter fun ev => upTo + 1 ≤ ev.seq, ?_⟩
    have hsplit := filter_lt_append_filter_ge (f := Event.seq) (upTo + 1) hs
    have hsame : (l.filter fun ev => within upTo ev.seq) = l.filter fun ev => ev.seq < upTo + 1 := by
      refine List.filter_congr fun ev _ => ?_
      simp [within, h]
    rw [hsame, hsplit]

/-- The fold of the events up to a sequence. -/
theorem Path.cut (hp : Path (applySeq x fl) (Stored fl base) (State.new execID) l s) (upTo : Nat) :
    ∃ t, Path (applySeq x fl) (Stored fl base) (State.new execID) (l.filter fun ev => within upTo ev.seq) t := by
  obtain ⟨rest, hrest⟩ := within_split (Path.chronicle hp).sorted upTo
  rw [hrest] at hp
  obtain ⟨t, ht, -⟩ := hp.split
  exact ⟨t, ht⟩

theorem defOf_head {ev : Event} {rest : List Event} (hp : Path (applySeq x fl) (Stored fl base) (State.new execID) (ev :: rest) s) :
    defOf ev = .ok () := by
  cases hp with
  | cons guard _ _ =>
    have hbeg : ev.data.begins = true := guard.promise.begins.2 rfl
    have hbase : ev.data.isBase = true := by cases hd : ev.data <;> rw [hd] at hbeg <;> first | rfl | cases hbeg
    rw [defOf, if_pos hbase]

variable {evs : List Event} {live : List Message}

theorem foldSeq_ok {t : State} (h : replay (applySeq x fl) s evs = .ok t) : foldSeq x fl s evs = .ok t := by
  rw [foldSeq, h]
  rfl

theorem foldUpTo_ok {t : State} (hp : Path (applySeq x fl) (Stored fl base) (State.new execID) l s)
    (ht : replay (applySeq x fl) (State.new execID) (l.filter fun ev => within upTo ev.seq) = .ok t) :
    foldUpTo x fl execID l upTo = .ok t := by
  cases l with
  | nil => cases ht; rfl
  | cons ev rest =>
    simp only [foldUpTo, defOf_head hp]
    rw [takeWhile_eq_filter (f := Event.seq) (p := within upTo) (fun a b => within_mono) (Path.chronicle hp).sorted]
    exact foldSeq_ok ht

theorem marshal_applySeq {s' t : State} {ev : Event} (h : s.marshal = s'.marshal) (ht : applySeq x fl s ev = .ok t) :
    ∃ t', applySeq x fl s' ev = .ok t' ∧ t.marshal = t'.marshal := by
  obtain ⟨u, hu, rfl⟩ := applySeq_ok.1 ht
  obtain ⟨u', hu', hm⟩ := State.marshal_apply h hu
  refine ⟨_, applySeq_ok.2 ⟨u', hu', rfl⟩, ?_⟩
  have hm : u.encoded = u'.encoded := congrArg Encoding.decoded hm
  show Encoding.mk { u.encoded with lastSeq := ev.seq } = Encoding.mk { u'.encoded with lastSeq := ev.seq }
  rw [hm]

/-- The live events, and those that were purged before them. -/
theorem Retains.split (h : Retains hist live) (hc : Chronicle (eventsOf hist) s) :
    ∃ c, live = hist.filter (fun m => c < m.seq) ∧ ∃ dropped, eventsOf hist = dropped ++ eventsOf live ∧
    (∀ ev ∈ dropped, ev.seq ≤ c) ∧ (dropped = [] ∨ ∃ ev ∈ eventsOf live, ev.data.isContinued = true) := by
  obtain ⟨c, hlive, hkeep⟩ := h
  have hsplit := filter_lt_append_filter_ge (f := Event.seq) (c + 1) hc.sorted
  have hev : eventsOf live = (eventsOf hist).filter fun ev => c + 1 ≤ ev.seq := by
    rw [hlive]
    exact eventsOf_filter (fun q => c + 1 ≤ q) hist
  refine ⟨c, hlive, (eventsOf hist).filter (fun ev => ev.seq < c + 1), by rw [hev, hsplit], fun ev hev => ?_, ?_⟩
  · have := (List.mem_filter.1 hev).2
    simp only [decide_eq_true_eq] at this
    omega
  · refine hkeep.imp_left fun h0 => List.filter_eq_nil_iff.2 fun ev hev => ?_
    have := (hc.seq ev hev).2
    simp only [decide_eq_true_eq]
    omega

/-- Reading the live log. -/
theorem readLog_live (hc : Chronicle (eventsOf hist) s) (hlive : live = hist.filter fun m => c < m.seq)
    (q upTo : Nat) : readLog live (q + 1) upTo = (eventsOf live).filter fun ev => q < ev.seq && within upTo ev.seq := by
  have hev : eventsOf live = (eventsOf hist).filter fun ev => c < ev.seq := by
    rw [hlive]
    exact eventsOf_filter (fun q => c < q) hist
  rw [hev, hlive, readLog_eq hc.sorted, List.filter_filter]
  refine List.filter_congr fun ev _ => ?_
  simp only [Nat.succ_le_iff, Bool.and_comm, Bool.and_assoc]

/-- Reading the live log from its beginning. -/
theorem Retains.read (h : Retains hist live) (hc : Chronicle (eventsOf hist) s) (upTo : Nat) :
    readLog live 1 upTo = (eventsOf live).filter fun ev => within upTo ev.seq := by
  obtain ⟨c, hlive, dropped, hsplit, -⟩ := h.split hc
  rw [readLog_live hc hlive 0 upTo]
  refine List.filter_congr fun ev hev => ?_
  have := (hc.seq ev (by rw [hsplit]; exact List.mem_append_right _ hev)).2
  simp [this]

theorem Retains.read_all (h : Retains hist live) (hc : Chronicle (eventsOf hist) s) :
    readLog live 1 0 = eventsOf live := by
  rw [h.read hc]
  exact List.filter_eq_self.2 fun ev _ => rfl

variable {σ : Store} {t : State}

theorem loadFromHistory_ok (hp : Path (applySeq x fl) (Stored fl base) (State.new execID) (eventsOf hist) s)
    (hret : Retains hist σ.live) (hobj : Archives x fl execID (eventsOf hist) σ.objects)
    (ht : replay (applySeq x fl) (State.new execID) ((eventsOf hist).filter fun ev => within upTo ev.seq) = .ok t) :
    σ.loadFromHistory x fl execID upTo = .ok t := by
  have hc := Path.chronicle hp
  obtain ⟨c, -, dropped, hsplit, -, hkeep⟩ := hret.split hc
  unfold Store.loadFromHistory
  rw [hret.read_all hc]
  by_cases hnil : eventsOf σ.live = []
  · have hd : dropped = [] := hkeep.resolve_right fun ⟨ev, hev, _⟩ => by rw [hnil] at hev; cases hev
    rw [hsplit, hnil, hd] at ht
    cases ht
    simp [hnil]
  · have hfull : withSegments σ.objects (eventsOf σ.live) = .ok (eventsOf hist) := by
      rw [hsplit] at hp hobj ⊢
      exact Path.withSegments hp hobj hkeep
    simp only [List.isEmpty_iff, hnil, if_false, hfull]
    exact foldUpTo_ok hp ht

/-- Events that reach back to one that bases a state. -/
theorem loadFrom_base {pre : List Event} {st : Option State} {i : Nat}
    (hp : Path (applySeq x fl) (Stored fl base) (State.new execID) (pre ++ evs) t) (hbase : lastBase evs = some i) :
    σ.loadFrom x fl execID upTo st evs = .ok t := by
  obtain ⟨pre', ev, post, rfl, hdrop, hb, -⟩ := lastWhere_some hbase
  rw [← List.append_assoc] at hp
  unfold Store.loadFrom
  rw [if_neg (by simp), hbase]
  simp only [hdrop, defOf, hb, if_true]
  exact foldSeq_ok (Path.from_base hp hb)

theorem loadFrom_none (hp : Path (applySeq x fl) (Stored fl base) (State.new execID) (eventsOf hist) s)
    (hret : Retains hist σ.live) (hobj : Archives x fl execID (eventsOf hist) σ.objects)
    (ht : Path (applySeq x fl) (Stored fl base) (State.new execID) ((eventsOf hist).filter fun ev => within upTo ev.seq) t) :
    σ.loadFrom x fl execID upTo none (readLog σ.live 1 upTo) = .ok t := by
  have hc := Path.chronicle hp
  obtain ⟨c, -, dropped, hsplit, -, hkeep⟩ := hret.split hc
  rw [hret.read hc]
  cases hbase : lastBase ((eventsOf σ.live).filter fun ev => within upTo ev.seq) with
  | some i =>
    rw [hsplit, List.filter_append] at ht
    exact loadFrom_base ht hbase
  | none =>
    unfold Store.loadFrom
    rw [hbase]
    split
    · split
      · exact loadFromHistory_ok hp hret hobj ht.replay
      · -- everything is read and nothing is there
        rename_i hempty hzero
        have hall : (eventsOf σ.live).filter (fun ev => within upTo ev.seq) = eventsOf σ.live :=
          List.filter_eq_self.2 fun ev _ => by simp [within, show upTo = 0 by omega]
        have hnil : eventsOf σ.live = [] := by
          rw [hall] at hempty
          simpa using hempty
        have hd : dropped = [] := hkeep.resolve_right fun ⟨ev, hev, _⟩ => by rw [hnil] at hev; cases hev
        rw [hsplit, hnil, hd] at ht
        cases ht
        rfl
    · exact loadFromHistory_ok hp hret hobj ht.replay

theorem markEnd_ne_nil (h : evs ≠ []) : markEnd evs ≠ [] := by
  match evs with
  | [] => exact absurd rfl h
  | [_] => exact List.cons_ne_nil _ _
  | _ :: _ :: _ => exact List.cons_ne_nil _ _

/-- The last sequence of a history, 0 if it is empty. -/
def headSeq (hist : List Message) : Nat := (hist.getLast?.map Message.seq).getD 0

theorem headSeq_append (hist : List Message) (m : Message) : headSeq (hist ++ [m]) = m.seq := by
  simp [headSeq]

/-- The fold ends where the history ends. -/
theorem Written.lastSeq (wf : WellFormed fl) (h : Written x fl execID hist) (hs : foldOf x fl execID hist = .ok s) :
    s.lastSeq = headSeq hist := by
  obtain ⟨b, s₀, hp, -⟩ := h.path wf
  cases hs.symm.trans hp.replay
  rw [(Path.chronicle hp).last]
  cases h with
  | nil => rfl
  | @append hist s s' evs seq h hs hm req now hsrc hseg hok hne hseq trace =>
    have hdec : Message.decode ⟨seq, evs.map (Event.traced trace)⟩ ≠ [] := markEnd_ne_nil (by simpa using hne)
    rw [headSeq_append, eventsOf_append, eventsOf_singleton, List.getLast?_append_of_ne_nil _ hdec,
      List.getLast?_eq_some_getLast hdec]
    exact Message.decode_seq _ _ (List.getLast_mem hdec)

/-- Later decisions have later sequences. -/
theorem Written.sorted (wf : WellFormed fl) (h : Written x fl execID hist) :
    hist.Pairwise (fun a b => a.seq < b.seq) ∧ ∀ m ∈ hist, 0 < m.seq ∧ m.seq ≤ headSeq hist := by
  induction h with
  | nil => exact ⟨.nil, fun _ hm => (List.not_mem_nil hm).elim⟩
  | @append hist s s' evs seq h hs hm req now hsrc hseg hok hne hseq trace ih =>
    obtain ⟨hsorted, hle⟩ := ih
    rw [h.lastSeq wf hs] at hseq
    refine ⟨List.pairwise_append.2 ⟨hsorted, List.pairwise_singleton _ _, fun a ha b hb => ?_⟩, fun m hm' => ?_⟩
    · rw [List.mem_singleton.1 hb]
      exact (hle a ha).2.trans_lt hseq
    · rw [headSeq_append]
      rcases List.mem_append.1 hm' with hm' | hm'
      · exact ⟨(hle m hm').1, ((hle m hm').2.trans_lt hseq).le⟩
      · rw [List.mem_singleton.1 hm']
        exact ⟨hseq.pos, le_rfl⟩

/-- A snapshot covers the events up to its sequence. -/
theorem Written.covers (wf : WellFormed fl) {pre post : List Message} {s : State} (h : Written x fl execID (pre ++ post))
    (hs : foldOf x fl execID pre = .ok s) :
    (∀ ev ∈ eventsOf pre, ev.seq ≤ s.lastSeq) ∧ ∀ ev ∈ eventsOf post, s.lastSeq < ev.seq := by
  obtain ⟨b, s₁, hp, -⟩ := h.path wf
  rw [show eventsOf (pre ++ post) = eventsOf pre ++ eventsOf post by simp [eventsOf]] at hp
  obtain ⟨s₀, hpre, hpost⟩ := hp.split
  cases hs.symm.trans hpre.replay
  have hc := Path.chronicle hpre
  refine ⟨fun ev hev => (hc.seq ev hev).1, fun ev hev => ?_⟩
  obtain ⟨m, hm, hev⟩ := List.mem_flatMap.1 hev
  rw [m.decode_seq ev hev]
  cases hlast : (eventsOf pre).getLast? with
  | none =>
    have hzero : s.lastSeq = 0 := by rw [hc.last, hlast]; rfl
    have hpos := ((Path.chronicle hp).seq ev (List.mem_append_right _ (List.mem_flatMap.2 ⟨m, hm, hev⟩))).2
    rw [m.decode_seq ev hev] at hpos
    omega
  | some e =>
    have hq : s.lastSeq = e.seq := by rw [hc.last, hlast]; rfl
    obtain ⟨m₀, hm₀, he⟩ := List.mem_flatMap.1 (List.mem_of_getLast? hlast)
    rw [hq, m₀.decode_seq e he]
    exact (List.pairwise_append.1 (h.sorted wf).1).2.2 m₀ hm₀ m hm

/-- What is read after a snapshot that the log continues is all that comes after it. -/
theorem continues_complete {live pre after : List Event} {st : State} (hst : st.events = pre.length)
    (hp : Path (applySeq x fl) (Stored fl base) (State.new execID) (pre ++ after) t)
    (hlate : ∀ ev ∈ after, st.lastSeq < ev.seq) (hfirst : ∀ m ∈ σ.live, c < m.seq)
    (hlive : live = after.filter fun ev => c < ev.seq) (hcont : σ.continues st live = true) : live = after := by
  have hsorted : after.Pairwise fun a b => a.seq ≤ b.seq := (List.pairwise_append.1 (Path.chronicle hp).sorted).2.1
  have hsplit := filter_lt_append_filter_ge (f := Event.seq) (c + 1) hsorted
  rw [show after.filter (fun ev => c + 1 ≤ ev.seq) = live from hlive.symm] at hsplit
  suffices hnone : after.filter (fun ev => ev.seq < c + 1) = [] by
    rw [hnone] at hsplit
    exact hsplit
  cases hl : live with
  | cons e rest =>
    rw [hl] at hsplit hcont
    rw [← hsplit, ← List.append_assoc] at hp
    obtain ⟨s₀, hpre, hrest⟩ := hp.split
    cases hrest with
    | cons guard _ _ =>
      have hindex := guard.promise.index
      rw [(Path.chronicle hpre).count, List.length_append] at hindex
      simp only [Store.continues, hst] at hcont
      rw [if_pos (by omega)] at hcont
      simp only [decide_eq_true_eq] at hcont
      exact List.eq_nil_of_length_eq_zero (by omega)
  | nil =>
    rw [hl] at hcont
    have hcont : firstSeq σ.live ≠ 0 ∧ firstSeq σ.live ≤ st.lastSeq := of_decide_eq_true hcont
    cases hm : σ.live with
    | nil => rw [hm] at hcont; exact absurd rfl hcont.1
    | cons m ms =>
      rw [hm] at hcont
      have hlt := hfirst m (by rw [hm]; exact List.mem_cons_self)
      have hle : m.seq ≤ st.lastSeq := hcont.2
      refine List.filter_eq_nil_iff.2 fun ev hev => ?_
      have := hlate ev hev
      simp only [decide_eq_true_eq]
      omega

/-- A snapshot that the log continues. -/
theorem loadFrom_snapshot (wf : WellFormed fl) {pre post : List Message} {sp : State} (hw : Written x fl execID (pre ++ post))
    (hsp : foldOf x fl execID pre = .ok sp) (husable : ¬(0 < upTo ∧ upTo < sp.lastSeq)) (hret : Retains (pre ++ post) σ.live)
    (hcont : σ.continues sp.encoded (readLog σ.live (sp.lastSeq + 1) upTo) = true)
    (hs : Path (applySeq x fl) (Stored fl base) (State.new execID)
    ((eventsOf (pre ++ post)).filter fun ev => within upTo ev.seq) s) :
    ∃ t, σ.loadFrom x fl execID upTo (some sp.encoded) (readLog σ.live (sp.lastSeq + 1) upTo) = .ok t ∧ t.marshal = s.marshal := by
  obtain ⟨hbefore, hafter⟩ := hw.covers wf hsp
  obtain ⟨b, send, hp, -⟩ := hw.path wf
  have hc := Path.chronicle hp
  obtain ⟨c, hlive, -⟩ := hret.split hc
  have happ : eventsOf (pre ++ post) = eventsOf pre ++ eventsOf post := by simp [eventsOf]
  have hall : (eventsOf pre).filter (fun ev => within upTo ev.seq) = eventsOf pre := by
    refine List.filter_eq_self.2 fun ev hev => ?_
    have := hbefore ev hev
    simp only [within, Bool.or_eq_true, decide_eq_true_eq]
    omega
  rw [happ, List.filter_append, hall] at hs
  -- the events read, in terms of those after the snapshot
  have hread : readLog σ.live (sp.lastSeq + 1) upTo =
      ((eventsOf post).filter fun ev => within upTo ev.seq).filter fun ev => c < ev.seq := by
    have hev : eventsOf σ.live = (eventsOf (pre ++ post)).filter fun ev => c < ev.seq := by
      rw [hlive]
      exact eventsOf_filter (fun q => c < q) (pre ++ post)
    have hold : (eventsOf pre).filter (fun ev => (Decidable.decide (sp.lastSeq < ev.seq) && within upTo ev.seq) && Decidable.decide (c < ev.seq)) = [] := by
      refine List.filter_eq_nil_iff.2 fun ev hev => ?_
      have := hbefore ev hev
      simp only [Bool.and_eq_true, decide_eq_true_eq]
      omega
    rw [readLog_live hc hlive sp.lastSeq upTo, hev, List.filter_filter, happ, List.filter_append, hold, List.nil_append,
      List.filter_filter]
    refine List.filter_congr fun ev hev => ?_
    simp [hafter ev hev, Bool.and_comm]
  have hspe : Path (applySeq x fl) (Stored fl base) (State.new execID) (eventsOf pre) sp := by
    obtain ⟨s₀, hpre, -⟩ := hs.split
    cases hsp.symm.trans hpre.replay
    exact hpre
  have hfull := @continues_complete _ _ _ _ _ _ _ _ _ _ sp.encoded (Path.chronicle hspe).count hs
    (fun ev hev => hafter ev (List.mem_filter.1 hev).1)
    (fun m hm => by rw [hlive] at hm; simpa using (List.mem_filter.1 hm).2) hread hcont
  rw [hfull]
  cases hbase : lastBase ((eventsOf post).filter fun ev => within upTo ev.seq) with
  | some i => exact ⟨s, loadFrom_base hs hbase, rfl⟩
  | none =>
    obtain ⟨s₀, hpre, hrest⟩ := hs.split
    cases hsp.symm.trans hpre.replay
    have hm : sp.marshal = sp.encoded.marshal := congrArg Encoding.mk (State.encoded_encoded sp).symm
    obtain ⟨t, ht, hmt⟩ := @replay_congr State Event Err (applySeq x fl) sp sp.encoded (fun s s' => s.marshal = s'.marshal)
      (fun h ht => marshal_applySeq h ht) s _ hm hrest.replay
    refine ⟨t, ?_, hmt.symm⟩
    unfold Store.loadFrom
    rw [if_neg (by simp), hbase]
    exact foldSeq_ok ht

/-- What is loaded is the fold of the events up to `upTo`, as it is written. -/
theorem Shows.load (wf : WellFormed fl) {σ : Store} (hw : Written x fl execID hist) (hσ : Shows x fl execID hist σ) (upTo : Nat) :
    ∃ s t, replay (applySeq x fl) (State.new execID) ((eventsOf hist).filter fun ev => within upTo ev.seq) = .ok s ∧
    σ.load x fl execID upTo = .ok t ∧ t.marshal = s.marshal ∧
    t.lastSeq = (((eventsOf hist).filter fun ev => within upTo ev.seq).getLast?.map Event.seq).getD 0 := by
  obtain ⟨base, send, hp, -⟩ := hw.path wf
  obtain ⟨s, hs⟩ := Path.cut hp upTo
  suffices h : ∃ t, σ.load x fl execID upTo = .ok t ∧ t.marshal = s.marshal by
    obtain ⟨t, hload, hm⟩ := h
    refine ⟨s, t, hs.replay, hload, hm, ?_⟩
    have hseq : t.lastSeq = s.lastSeq :=
      show t.encoded.lastSeq = s.encoded.lastSeq from congrArg (fun b : Encoding => b.decoded.lastSeq) hm
    rw [hseq, (Path.chronicle hs).last]
  have hnone : σ.loadFrom x fl execID upTo none (readLog σ.live 1 upTo) = .ok s := loadFrom_none hp hσ.live hσ.objects hs
  unfold Store.load
  cases hsnap : σ.snapshotFor upTo with
  | none => exact ⟨s, hnone, rfl⟩
  | some st =>
    simp only
    split
    · rename_i hcont
      unfold Store.snapshotFor at hsnap
      cases hb : σ.snapshot with
      | none => rw [hb] at hsnap; cases hsnap
      | some b =>
        obtain ⟨pre, post, sp, rfl, hsp, rfl⟩ := hσ.snapshot b hb
        rw [hb] at hsnap
        simp only at hsnap
        split at hsnap
        · cases hsnap
        · rename_i husable
          cases hsnap
          exact loadFrom_snapshot wf hw hsp husable hσ.live hcont hs
    · exact ⟨s, hnone, rfl⟩

end

/-- **Loading is folding.** Whatever a store shows of a history, `Load` returns the fold of the events up
to the sequence it is asked for, with the last of their sequences. -/
theorem load_is_fold {x : Ext} {fl : Flow} (hv : validate x fl = []) {execID : String} {hist : List Message} {σ : Store}
    (hw : Written x fl execID hist) (hσ : Shows x fl execID hist σ) (upTo : Nat) :
    ∃ s t, replay (applySeq x fl) (State.new execID) ((eventsOf hist).filter fun ev => within upTo ev.seq) = .ok s ∧
      σ.load x fl execID upTo = .ok t ∧ t.marshal = s.marshal ∧
      t.lastSeq = (((eventsOf hist).filter fun ev => within upTo ev.seq).getLast?.map Event.seq).getD 0 :=
  hσ.load (wellFormed_of_validate hv) hw upTo

/-- The segment `continueAsNew` names (`engine.go:614-618`). -/
def segmentOf (execID : String) : List Event → Option Segment
  | [] => none
  | first :: rest =>
    let last := rest.getLast?.getD first
    some ⟨segmentObject execID first.index, first.index, last.index, first.seq, last.seq⟩

theorem segmentOf_object {execID : String} {seg : List Event} {segment : Segment} (h : segmentOf execID seg = some segment) :
    ∃ first, segment.object = segmentObject execID first := by
  cases seg with
  | nil => cases h
  | cons ev evs =>
    cases h
    exact ⟨_, rfl⟩

/-- The one-task review, started and continued as new. -/
def startedMessage : Message := ⟨1, startedReview.events.map (Event.traced "")⟩

def startedFold : State := (foldOf plainExt oneTask "r1" [startedMessage]).toOption.getD (State.new "r1")

def reviewSegment : Segment := (segmentOf "r1" startedMessage.decode).get (by decide +kernel)

def continuedReview : Outcome := continueAsNew plainExt oneTask startedFold reviewSegment "continue.r1.5" 2

def continuedMessage : Message := ⟨2, continuedReview.events.map (Event.traced "")⟩

/-- What is left after the purge. -/
def continuedStore : Store := { live := [continuedMessage], objects := single reviewSegment.object startedMessage.decode }

/-- What the two decisions evaluate to. -/
theorem continuedReview_evaluates :
    ((foldOf plainExt oneTask "r1" [startedMessage]).isOk = true ∧ startedReview.result.isOk = true ∧ 0 < startedReview.events.length) ∧
    continuedReview.result.isOk = true ∧ 0 < continuedReview.events.length ∧ startedFold.lastSeq < 2 ∧ startedFold.base = 0 ∧
    (eventsOf [startedMessage]).any (fun ev => ev.data.isContinued) = false ∧
    (eventsOf continuedStore.live).any (fun ev => ev.data.isContinued) = true := by
  decide +kernel

theorem startedFold_eq : foldOf plainExt oneTask "r1" [startedMessage] = .ok startedFold :=
  ok_of_isOk continuedReview_evaluates.1.1 _

theorem startedReview_written : Written plainExt oneTask "r1" [startedMessage] :=
  .append .nil rfl rfl (.ask (.command startReview)) 1 (Ask.sourced_command _ _ _) trivial
    (Outcome.result_events continuedReview_evaluates.1.2.1) (List.ne_nil_of_length_pos continuedReview_evaluates.1.2.2) (by decide) ""

theorem continuedReview_written : Written plainExt oneTask "r1" ([startedMessage] ++ [continuedMessage]) := by
  obtain ⟨-, hok, hne, hseq, -⟩ := continuedReview_evaluates
  exact .append startedReview_written startedFold_eq rfl (.continueAsNew reviewSegment "continue.r1.5") 2 (fun _ h => by cases h)
    (segmentOf_object (Option.some_get _).symm) (Outcome.result_events hok) (List.ne_nil_of_length_pos hne) hseq ""

/-- A continuation's message, and the segment it names. -/
theorem continueAsNew_decode {x : Ext} {fl : Flow} {s : State} {seg : Segment} {cmdID : String} {now : Time} {evs : List Event}
    (hok : (continueAsNew x fl s seg cmdID now).result = .ok evs) (hne : evs ≠ []) (seq : Nat) (trace : String) :
    ∃ ev d, Message.decode ⟨seq, evs.map (Event.traced trace)⟩ = [ev] ∧ ev.data = .continued d ∧ d.segment = seg := by
  by_cases hrun : (!s.exists || s.status.terminal) = true
  · unfold continueAsNew at hok
    rw [if_pos hrun] at hok
    exact absurd (Except.ok.inj hok).symm hne
  · simp only [Bool.or_eq_true, Bool.not_eq_true', not_or, Bool.not_eq_false, Bool.not_eq_true] at hrun
    obtain ⟨ev, hev, -, hout⟩ := @continueAsNew_state x fl s hrun.1 hrun.2 seg cmdID now
    rw [hout] at hok
    cases hok
    exact ⟨_, _, rfl, hev, rfl⟩

theorem continuedStore_archives :
    Archives plainExt oneTask "r1" (eventsOf ([startedMessage] ++ [continuedMessage])) continuedStore.objects := by
  obtain ⟨-, hok, hne, -, hbase, hnone, -⟩ := continuedReview_evaluates
  obtain ⟨ev, d, hdec, hd, hseg⟩ := continueAsNew_decode (Outcome.result_events hok) (List.ne_nil_of_length_pos hne) 2 ""
  have hplain : Archives plainExt oneTask "r1" ([] ++ eventsOf [startedMessage]) continuedStore.objects :=
    Archives.append_plain Archives.nil hnone
  rw [eventsOf_append, eventsOf_singleton continuedMessage, show continuedMessage.decode = [ev] from hdec]
  refine hplain.append_continued hd startedFold_eq ?_
  rw [hseg]
  simp [continuedStore, hbase, eventsOf]

theorem continuedStore_loads : ∃ s t, replay (applySeq plainExt oneTask) (State.new "r1")
      ((eventsOf [startedMessage, continuedMessage]).filter fun ev => within 1 ev.seq) = .ok s ∧
    continuedStore.load plainExt oneTask "r1" 1 = .ok t ∧ t.marshal = s.marshal ∧
    t.lastSeq = (((eventsOf [startedMessage, continuedMessage]).filter fun ev => within 1 ev.seq).getLast?.map Event.seq).getD 0 := by
  refine load_is_fold oneTask_valid continuedReview_written ⟨⟨1, rfl, .inr ?_⟩, continuedStore_archives, fun _ h => by cases h⟩ 1
  exact List.any_eq_true.1 continuedReview_evaluates.2.2.2.2.2.2

end Packtrail
