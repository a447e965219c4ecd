import Packtrail.Decisions

/-
# What a log shows

Facts about the log of an execution alone, all consequences of the promise every event keeps. An
attempt is named by its task key, generation and attempt number. `NodeInterrupted` carries no attempt
number and `NodeCancelled` neither that nor a generation: they are about the last attempt scheduled
for what they name (`lastRun`).

`Traced` relates the log written so far to the open tasks; `Traced.step` carries it over one event and
`traced` over a whole log.
-/

namespace Packtrail

open Replay

structure Attempt where
  key : String
  generation : Nat
  attempt : Nat
  deriving DecidableEq, Repr

def Event.schedules (ev : Event) : Option Attempt :=
  match ev.data with
  | .scheduled d => some ⟨d.key, d.generation, d.attempt⟩
  | _ => none

def scheduled (l : List Event) : List Attempt := l.filterMap Event.schedules

/-- The last attempt of `l` that meets `p`. -/
def lastRun (l : List Event) (p : Attempt → Bool) : Option Attempt := (scheduled l).reverse.find? p

/-- The attempt that `ev` completes, fails or interrupts, in a log that begins with `before`. -/
def settles (before : List Event) (ev : Event) : Option Attempt :=
  match ev.data with
  | .nodeDone d => some ⟨d.key, d.generation, d.attempt⟩
  | .nodeFail d => some ⟨d.key, d.generation, d.attempt⟩
  | .interrupted d => lastRun before fun a => a.key == d.key && a.generation == d.generation
  | _ => none

/-- The attempt whose instance `ev` cancels. -/
def drops (before : List Event) (ev : Event) : Option Attempt :=
  match ev.data with
  | .nodeCancel d => lastRun before fun a => a.key == d.key
  | _ => none

/-- What `f` says of each event of a log, given the events before it. -/
def collect (f : List Event → Event → Option Attempt) : List Event → List Event → List Attempt
  | _, [] => []
  | before, ev :: rest => (f before ev).toList ++ collect f (before ++ [ev]) rest

def settled (l : List Event) : List Attempt := collect settles [] l

def dropped (l : List Event) : List Attempt := collect drops [] l

/-- The number `ev` takes: a first attempt its generation, a timer and a child their own. -/
def Event.allocates (ev : Event) : Option Nat :=
  match ev.data with
  | .scheduled d => if d.attempt = 1 then some d.generation else none
  | .timer d => some d.n
  | .child d => some d.childN
  | _ => none

def numbers (l : List Event) : List Nat := l.filterMap Event.allocates

/-- The attempt numbers of generation `g`, in the order of the log. -/
def attemptsOf (g : Nat) (l : List Event) : List Nat :=
  ((scheduled l).filter fun a => a.generation == g).map Attempt.attempt

/-! ## One event more -/

section
variable {l : List Event} {ev : Event}

theorem collect_snoc (f : List Event → Event → Option Attempt) (before l : List Event) (ev : Event) :
    collect f before (l ++ [ev]) = collect f before l ++ (f (before ++ l) ev).toList := by
  induction l generalizing before with
  | nil => simp [collect]
  | cons e l ih => simp only [List.cons_append, collect, ih, List.append_assoc, List.nil_append]

theorem settled_snoc (l : List Event) (ev : Event) : settled (l ++ [ev]) = settled l ++ (settles l ev).toList :=
  collect_snoc settles [] l ev

theorem dropped_snoc (l : List Event) (ev : Event) : dropped (l ++ [ev]) = dropped l ++ (drops l ev).toList :=
  collect_snoc drops [] l ev

theorem scheduled_snoc (l : List Event) (ev : Event) : scheduled (l ++ [ev]) = scheduled l ++ ev.schedules.toList := by
  unfold scheduled
  rw [List.filterMap_append]
  cases h : ev.schedules <;> simp [h]

theorem numbers_snoc (l : List Event) (ev : Event) : numbers (l ++ [ev]) = numbers l ++ ev.allocates.toList := by
  unfold numbers
  rw [List.filterMap_append]
  cases h : ev.allocates <;> simp [h]

theorem scheduled_quiet (h : ev.schedules = none) : scheduled (l ++ [ev]) = scheduled l := by
  rw [scheduled_snoc, h]
  simp

theorem lastRun_quiet (h : ev.schedules = none) (p : Attempt → Bool) : lastRun (l ++ [ev]) p = lastRun l p := by
  unfold lastRun
  rw [scheduled_quiet h]

theorem lastRun_snoc {a : Attempt} (h : ev.schedules = some a) (p : Attempt → Bool) :
    lastRun (l ++ [ev]) p = if p a then some a else lastRun l p := by
  unfold lastRun
  rw [scheduled_snoc, h, Option.toList_some, List.reverse_append, List.reverse_singleton, List.singleton_append, List.find?_cons]
  cases p a <;> rfl

theorem attemptsOf_quiet (h : ev.schedules = none) (g : Nat) : attemptsOf g (l ++ [ev]) = attemptsOf g l := by
  unfold attemptsOf
  rw [scheduled_quiet h]

theorem attemptsOf_snoc {a : Attempt} (h : ev.schedules = some a) (g : Nat) :
    attemptsOf g (l ++ [ev]) = attemptsOf g l ++ if a.generation = g then [a.attempt] else [] := by
  unfold attemptsOf
  rw [scheduled_snoc, h, Option.toList_some, List.filter_append, List.map_append]
  by_cases hg : a.generation = g <;> simp [hg]

theorem lastRun_mem {p : Attempt → Bool} {a : Attempt} (h : lastRun l p = some a) : a ∈ scheduled l := by
  have := List.mem_of_find?_eq_some h
  simpa using this

/-- Asking for more of the last run finds it again. -/
theorem find?_stronger {α : Type} {p q : α → Bool} (hq : ∀ a, q a = true → p a = true) {xs : List α} {a : α}
    (h : xs.find? p = some a) (ha : q a = true) : xs.find? q = some a := by
  induction xs with
  | nil => cases h
  | cons y ys ih =>
    rw [List.find?_cons] at h ⊢
    cases hp : p y with
    | true =>
      rw [hp] at h
      cases h
      rw [ha]
    | false =>
      rw [hp] at h
      have : q y = false := by
        cases hqy : q y with
        | false => rfl
        | true => rw [hq y hqy] at hp; cases hp
      rw [this]
      exact ih h

theorem mem_attemptsOf {a : Attempt} (h : a ∈ scheduled l) : a.attempt ∈ attemptsOf a.generation l :=
  List.mem_map.2 ⟨a, List.mem_filter.2 ⟨h, by simp⟩, rfl⟩

end

/-! ## The log and the open tasks -/

structure Traced (fl : Flow) (base : Nat) (l : List Event) (w : Work) : Prop where
  base_le : l ≠ [] → base ≤ w.n
  once : (scheduled l).Nodup
  bound : ∀ a ∈ scheduled l, base < a.generation ∧ a.generation ≤ w.n
  attempts : ∀ g, ∃ m, attemptsOf g l = List.range' 1 m
  limit : ∀ ev ∈ l, ∀ d, ev.data = .scheduled d → ∃ nd, fl.node d.node = some nd ∧ (d.attempt : Int) ≤ nd.maxAttempts
  settledOnce : (settled l).Nodup
  settledAfter : ∀ a ∈ settled l, a ∈ scheduled l
  increasing : (numbers l).Pairwise (· < ·)
  numbered : ∀ m ∈ numbers l, base < m ∧ m ≤ w.n
  last : ∀ {k : String} {t}, w.tasks[k]? = some t → base < t.generation →
    lastRun l (fun a => a.key == k) = some ⟨k, t.generation, t.attempt⟩
  upto : ∀ {k : String} {t}, w.tasks[k]? = some t → base < t.generation → attemptsOf t.generation l = List.range' 1 t.attempt
  running : ∀ {k : String} {t}, w.tasks[k]? = some t → base < t.generation → t.status = .scheduled →
    ⟨k, t.generation, t.attempt⟩ ∉ settled l
  distinct : ∀ {k k' : String} {t t'}, w.tasks[k]? = some t → w.tasks[k']? = some t' → base < t.generation →
    t.generation = t'.generation → k = k'

namespace Traced

variable {fl : Flow} {base : Nat} {l : List Event} {ev : Event} {w w' : Work}

/-- An event that schedules nothing: what is left of the open tasks was open before. -/
theorem quiet (h : Traced fl base l w) (hs : ev.schedules = none) (hbase : base ≤ w'.n) (hn : w.n ≤ w'.n)
    (hset : ∀ a, settles l ev = some a → a ∈ scheduled l ∧ a ∉ settled l)
    (halloc : ∀ m, ev.allocates = some m → base < m ∧ w.n < m ∧ m ≤ w'.n)
    (hsub : ∀ (k : String) (t' : Task), w'.tasks[k]? = some t' → base < t'.generation →
      ∃ t, w.tasks[k]? = some t ∧ t.generation = t'.generation ∧ t.attempt = t'.attempt ∧
        (t'.status = .scheduled → t.status = .scheduled ∧ settles l ev ≠ some ⟨k, t.generation, t.attempt⟩)) :
    Traced fl base (l ++ [ev]) w' where
  base_le _ := hbase
  once := by rw [scheduled_quiet hs]; exact h.once
  bound a ha := by
    rw [scheduled_quiet hs] at ha
    exact ⟨(h.bound a ha).1, (h.bound a ha).2.trans hn⟩
  attempts g := by rw [attemptsOf_quiet hs]; exact h.attempts g
  limit e he d hd := by
    rcases List.mem_append.1 he with he | he
    · exact h.limit e he d hd
    · rw [List.mem_singleton] at he
      subst he
      rw [Event.schedules, hd] at hs
      cases hs
  settledOnce := by
    rw [settled_snoc]
    cases hse : settles l ev with
    | none => simpa using h.settledOnce
    | some a => exact List.Nodup.append h.settledOnce (List.nodup_singleton a) (by simpa using (hset a hse).2)
  settledAfter a ha := by
    rw [scheduled_quiet hs]
    rw [settled_snoc, List.mem_append, Option.mem_toList] at ha
    exact ha.elim (h.settledAfter a) fun hse => (hset a hse).1
  increasing := by
    rw [numbers_snoc]
    cases ha : ev.allocates with
    | none => simpa using h.increasing
    | some m =>
      refine List.pairwise_append.2 ⟨h.increasing, List.pairwise_singleton _ _, fun i hi j hj => ?_⟩
      rw [Option.toList_some, List.mem_singleton] at hj
      have := (h.numbered i hi).2
      have := (halloc m ha).2.1
      omega
  numbered m hm := by
    rw [numbers_snoc, List.mem_append] at hm
    rcases hm with hm | hm
    · exact ⟨(h.numbered m hm).1, (h.numbered m hm).2.trans hn⟩
    · rw [Option.mem_toList] at hm
      exact ⟨(halloc m hm).1, (halloc m hm).2.2⟩
  last hk hb := by
    obtain ⟨t, ht, hg, ha, -⟩ := hsub _ _ hk hb
    rw [lastRun_quiet hs, h.last ht (hg ▸ hb), hg, ha]
  upto hk hb := by
    obtain ⟨t, ht, hg, ha, -⟩ := hsub _ _ hk hb
    rw [attemptsOf_quiet hs, ← hg, ← ha]
    exact h.upto ht (hg ▸ hb)
  running hk hb hst := by
    obtain ⟨t, ht, hg, ha, hstat⟩ := hsub _ _ hk hb
    obtain ⟨hst', hne⟩ := hstat hst
    rw [settled_snoc, List.mem_append, not_or, Option.mem_toList, ← hg, ← ha]
    exact ⟨h.running ht (hg ▸ hb) hst', hne⟩
  distinct hk hk' hb he := by
    obtain ⟨t, ht, hg, -, -⟩ := hsub _ _ hk hb
    obtain ⟨t', ht', hg', -, -⟩ := hsub _ _ hk' (he ▸ hb)
    exact h.distinct ht ht' (hg ▸ hb) (hg.trans (he.trans hg'.symm))

/-- The attempts of a generation run from 1 to the one of its open task. -/
theorem attempt_le (h : Traced fl base l w) {k : String} {t : Task} (ht : w.tasks[k]? = some t) (hb : base < t.generation)
    {a : Attempt} (ha : a ∈ scheduled l) (hg : a.generation = t.generation) : a.attempt ≤ t.attempt := by
  have hmem := mem_attemptsOf ha
  rw [hg, h.upto ht hb, List.mem_range'_1] at hmem
  omega

theorem attemptsOf_new (h : Traced fl base l w) {g : Nat} (hg : w.n < g) : attemptsOf g l = [] := by
  unfold attemptsOf
  rw [List.map_eq_nil_iff, List.filter_eq_nil_iff]
  intro a ha he
  have := (h.bound a ha).2
  have : a.generation = g := by simpa using he
  omega

/-- What scheduling an attempt adds, first or next of its generation. -/
structure Adds (base : Nat) (l : List Event) (w : Work) (d : Event.Scheduled) : Prop where
  above : base < d.generation
  unseen : ⟨d.key, d.generation, d.attempt⟩ ∉ scheduled l
  upto : attemptsOf d.generation l ++ [d.attempt] = List.range' 1 d.attempt
  fresh : ∀ m, (if d.attempt = 1 then some d.generation else none) = some m → w.n < m ∧ m = d.generation
  apart : ∀ {k : String} {t}, w.tasks[k]? = some t → base < t.generation → t.generation = d.generation → k = d.key

theorem adds (h : Traced fl base l w) (hw : w.Sound fl) (hl : l ≠ []) {d : Event.Scheduled}
    (hd : w.FreshRun base d ∨ w.RetryRun base d) : Adds base l w d := by
  rcases hd with ⟨ha, hg, -⟩ | ⟨t, ht, -, hg, ha, hb⟩
  · have hbase := h.base_le hl
    refine ⟨by omega, fun hmem => ?_, ?_, fun m hm => ?_, fun {k t} ht _ he => ?_⟩
    · have : d.generation ≤ w.n := (h.bound _ hmem).2
      omega
    · rw [h.attemptsOf_new (by omega), ha]
      rfl
    · rw [if_pos ha] at hm
      cases hm
      exact ⟨by omega, rfl⟩
    · have := (hw.task ht).le
      omega
  · have hone := (hw.task ht).attempt
    refine ⟨hg ▸ hb, fun hmem => ?_, ?_, fun m hm => ?_, fun {k t'} ht' hb' he => ?_⟩
    · have : d.attempt ≤ t.attempt := h.attempt_le ht hb hmem hg
      omega
    · rw [hg, h.upto ht hb, ha]
      rw [List.range'_1_concat, Nat.add_comm 1]
    · rw [if_neg (by omega)] at hm
      cases hm
    · exact h.distinct ht' ht hb' (he.trans hg)

theorem schedule (h : Traced fl base l w) (hw : w.Sound fl) (hl : l ≠ []) {d : Event.Scheduled} (he : ev.data = .scheduled d)
    (hd : w.FreshRun base d ∨ w.RetryRun base d)
    (hnode : ∃ nd, fl.node d.node = some nd ∧ (d.attempt : Int) ≤ nd.maxAttempts) :
    Traced fl base (l ++ [ev]) (w.schedule d) := by
  have hadd := h.adds hw hl hd
  have hs : ev.schedules = some ⟨d.key, d.generation, d.attempt⟩ := by simp only [Event.schedules, he]
  have hse : settles l ev = none := by simp only [settles, he]
  have hal : ev.allocates = if d.attempt = 1 then some d.generation else none := by simp only [Event.allocates, he]
  have hn : w.n ≤ (w.schedule d).n := le_max_left _ _
  have hgn : d.generation ≤ (w.schedule d).n := le_max_right _ _
  have hupto : attemptsOf d.generation (l ++ [ev]) = List.range' 1 d.attempt := by
    rw [attemptsOf_snoc hs, if_pos rfl]
    exact hadd.upto
  have hother : ∀ {g : Nat}, d.generation ≠ g → attemptsOf g (l ++ [ev]) = attemptsOf g l := by
    intro g hne
    rw [attemptsOf_snoc hs, if_neg hne, List.append_nil]
  have hsettled : settled (l ++ [ev]) = settled l := by rw [settled_snoc, hse]; simp
  -- the open tasks are those of before and the new one at its key
  have hget : ∀ {k : String} {t : Task}, (w.schedule d).tasks[k]? = some t →
      (d.key = k ∧ t = w.taskOf d) ∨ (d.key ≠ k ∧ w.tasks[k]? = some t) := fun hk =>
    (get_of_insert hk).imp_left fun ⟨h1, h2⟩ => ⟨h1, h2.symm⟩
  refine ⟨fun _ => (h.base_le hl).trans hn, ?_, fun a ha => ?_, fun g => ?_, fun e hmem d' hd' => ?_, ?_, fun a ha => ?_, ?_,
    fun m hm => ?_, fun {k t} hk hb => ?_, fun {k t} hk hb => ?_, fun {k t} hk hb hst => ?_, fun {k k' t t'} hk hk' hb heq => ?_⟩
  · rw [scheduled_snoc, hs]
    exact List.Nodup.append h.once (List.nodup_singleton _) (by simpa using hadd.unseen)
  · rw [scheduled_snoc, hs, List.mem_append, Option.toList_some, List.mem_singleton] at ha
    rcases ha with ha | rfl
    · exact ⟨(h.bound a ha).1, (h.bound a ha).2.trans hn⟩
    · exact ⟨hadd.above, hgn⟩
  · by_cases hg : d.generation = g
    · exact ⟨d.attempt, hg ▸ hupto⟩
    · rw [hother hg]; exact h.attempts g
  · rcases List.mem_append.1 hmem with hmem | hmem
    · exact h.limit e hmem d' hd'
    · rw [List.mem_singleton] at hmem
      subst hmem
      rw [he] at hd'
      cases hd'
      exact hnode
  · rw [hsettled]; exact h.settledOnce
  · rw [hsettled] at ha
    rw [scheduled_snoc, List.mem_append]
    exact .inl (h.settledAfter a ha)
  · rw [numbers_snoc, hal]
    refine List.pairwise_append.2 ⟨h.increasing, ?_, fun i hi j hj => ?_⟩
    · split <;> simp
    · rw [Option.mem_toList] at hj
      have := (h.numbered i hi).2
      have := (hadd.fresh j hj).1
      omega
  · rw [numbers_snoc, hal, List.mem_append, Option.mem_toList] at hm
    rcases hm with hm | hm
    · exact ⟨(h.numbered m hm).1, (h.numbered m hm).2.trans hn⟩
    · rw [(hadd.fresh m hm).2]
      exact ⟨hadd.above, hgn⟩
  · rw [lastRun_snoc hs]
    rcases hget hk with ⟨rfl, rfl⟩ | ⟨hne, hk⟩
    · simp [Work.taskOf]
    · rw [if_neg (by simpa using hne)]
      exact h.last hk hb
  · rcases hget hk with ⟨rfl, rfl⟩ | ⟨hne, hk⟩
    · exact hupto
    · rw [hother fun hg => hne (hadd.apart hk hb hg.symm).symm]
      exact h.upto hk hb
  · rw [hsettled]
    rcases hget hk with ⟨rfl, rfl⟩ | ⟨hne, hk⟩
    · exact fun hmem => hadd.unseen (h.settledAfter _ hmem)
    · exact h.running hk hb hst
  · rcases hget hk with ⟨rfl, rfl⟩ | ⟨hne, hk⟩ <;> rcases hget hk' with ⟨rfl, rfl⟩ | ⟨hne', hk'⟩
    · rfl
    · exact (hadd.apart hk' (heq ▸ hb) heq.symm).symm
    · exact hadd.apart hk hb heq
    · exact h.distinct hk hk' hb heq

/-- An event that only names the attempt at `key` among the open tasks. -/
theorem settle {key : String} {g a : Nat} (h : Traced fl base l w) (hs : ev.schedules = none) (hal : ev.allocates = none)
    (hbase : base ≤ w'.n) (hn : w.n ≤ w'.n) (hatt : w.Attempting base key g a) (hse : settles l ev = some ⟨key, g, a⟩)
    (hkept : ∀ (k : String) (t' : Task), w'.tasks[k]? = some t' → ∃ t, w.tasks[k]? = some t ∧
      t.generation = t'.generation ∧ t.attempt = t'.attempt ∧ (t'.status = .scheduled → t.status = .scheduled ∧ key ≠ k)) :
    Traced fl base (l ++ [ev]) w' := by
  obtain ⟨t, ht, hst, rfl, rfl, hb⟩ := hatt
  refine h.quiet hs hbase hn (fun b hb' => ?_) (fun m hm => ?_) fun k t' ht' _ => ?_
  · rw [hse] at hb'
    cases hb'
    exact ⟨lastRun_mem (h.last ht hb), h.running ht hb hst⟩
  · rw [hal] at hm; cases hm
  · obtain ⟨t₀, ht₀, hg, ha, hstat⟩ := hkept k t' ht'
    refine ⟨t₀, ht₀, hg, ha, fun hsch => ⟨(hstat hsch).1, ?_⟩⟩
    rw [hse]
    exact fun he => (hstat hsch).2 (congrArg Attempt.key (Option.some.inj he))

/-- Nothing was scheduled yet, and every inherited generation is at most `base`. -/
theorem of_none (hs : scheduled l = []) (hse : settled l = []) (hal : numbers l = []) (hbase : l ≠ [] → base ≤ w.n)
    (hold : ∀ (k : String) (t : Task), w.tasks[k]? = some t → t.generation ≤ base) : Traced fl base l w where
  base_le := hbase
  once := by rw [hs]; exact List.nodup_nil
  bound a ha := by rw [hs] at ha; cases ha
  attempts g := ⟨0, by simp [attemptsOf, hs]⟩
  limit ev hev d hd := by
    have : (⟨d.key, d.generation, d.attempt⟩ : Attempt) ∈ scheduled l :=
      List.mem_filterMap.2 ⟨ev, hev, by simp only [Event.schedules, hd]⟩
    rw [hs] at this
    cases this
  settledOnce := by rw [hse]; exact List.nodup_nil
  settledAfter a ha := by rw [hse] at ha; cases ha
  increasing := by rw [hal]; exact List.Pairwise.nil
  numbered m hm := by rw [hal] at hm; cases hm
  last hk hb := absurd (hold _ _ hk) (by omega)
  upto hk hb := absurd (hold _ _ hk) (by omega)
  running hk hb := absurd (hold _ _ hk) (by omega)
  distinct hk _ hb := absurd (hold _ _ hk) (by omega)

end Traced

section
variable {x : Ext} {fl : Flow} {base : Nat} {l : List Event} {s s' : State} {ev : Event}

/-- The interrupt of an attempt is the interrupt of the last one scheduled at its key. -/
theorem Traced.settles_interrupted {d : Event.Interrupted} {a : Nat} (h : Traced fl base l s.work)
    (he : ev.data = .interrupted d) (hatt : s.work.Attempting base d.key d.generation a) :
    settles l ev = some ⟨d.key, d.generation, a⟩ := by
  obtain ⟨t, ht, -, hg, ha, hb⟩ := hatt
  simp only [settles, he]
  have hlast := h.last ht (hg ▸ hb)
  rw [hg, ha] at hlast
  exact find?_stronger (fun b hb => by simp only [Bool.and_eq_true] at hb; exact hb.1) hlast (by simp)

/-- **One event more.** -/
theorem Traced.step (h : Traced fl base l s.work) (hw : s.work.Sound fl) (hl : l = [] ↔ s.events = 0)
    (hp : Promise fl base s ev) : Traced fl base (l ++ [ev]) (s.work.step ev.data) := by
  have ho := hp.offer
  by_cases hb : ev.data.begins = true
  · -- the first event: nothing was scheduled in this log, and what a fork inherits is numbered up to `base`
    have hnil : l = [] := hl.2 (hp.begins.1 hb)
    subst hnil
    have hnone : ev.schedules = none ∧ settles [] ev = none ∧ ev.allocates = none := by
      cases hd : ev.data <;> rw [hd] at hb <;> first | cases hb; done | simp [Event.schedules, settles, Event.allocates, hd]
    refine .of_none (by simp [scheduled, hnone]) (by simp [settled, collect, hnone]) (by simp [numbers, hnone]) (fun _ => ?_)
      fun k t ht => ?_
    · cases hd : ev.data with
      | started d => rw [hd] at ho; rw [ho.1]; exact Nat.zero_le _
      | forked d => rw [hd] at ho; exact ho.1.le
      | _ => rw [hd] at hb; cases hb
    · cases hd : ev.data with
      | started d =>
        rw [hd] at ho ht
        have ht : s.work.tasks[k]? = some t := ht
        rw [ho.2] at ht
        exact (Work.none_idle.no_task ht).elim
      | forked d =>
        rw [hd] at ho ht
        exact (ho.2.1.task ht).le.trans ho.1.ge
      | _ => rw [hd] at hb; cases hb
  · have hb : ev.data.begins = false := by simpa using hb
    have hne : l ≠ [] := fun he => by
      have := hp.begins.2 (hl.1 he)
      rw [hb] at this
      cases this
    have hn := n_step ho hb
    have hbase : base ≤ (s.work.step ev.data).n := (h.base_le hne).trans hn
    -- the events that change no task but by taking it away
    have others : ev.schedules = none → settles l ev = none →
        (∀ m, ev.allocates = some m → m = s.n + 1 ∧ m ≤ (s.work.step ev.data).n) →
        (∀ (k : String) (t : Task), (s.work.step ev.data).tasks[k]? = some t → s.work.tasks[k]? = some t) →
        Traced fl base (l ++ [ev]) (s.work.step ev.data) := by
      intro hs hse hal hkept
      refine h.quiet hs hbase hn (fun a ha => by rw [hse] at ha; cases ha) (fun m hm => ?_) fun k t ht _ => ?_
      · have hle : base ≤ s.n := h.base_le hne
        obtain ⟨he, hm⟩ := hal m hm
        exact ⟨by omega, show s.n < m by omega, hm⟩
      · exact ⟨t, hkept k t ht, rfl, rfl, fun hst => ⟨hst, by rw [hse]; simp⟩⟩
    cases hd : ev.data with
    | scheduled d => rw [hd] at ho; exact h.schedule hw hne hd ho.1 ho.2
    | nodeDone d =>
      rw [hd] at ho hbase hn
      refine h.settle (by simp [Event.schedules, hd]) (by simp [Event.allocates, hd]) hbase hn ho (by simp [settles, hd])
        fun k t ht => ?_
      obtain ⟨hk, hne⟩ := Work.get_finishTask ht
      exact ⟨t, hk, rfl, rfl, fun hst => ⟨hst, hne⟩⟩
    | nodeFail d =>
      rw [hd] at ho hbase hn
      refine h.settle (by simp [Event.schedules, hd]) (by simp [Event.allocates, hd]) hbase hn ho.1 (by simp [settles, hd])
        fun k t ht => ?_
      simp only [Work.step] at ht
      split at ht
      · rcases Work.get_setStatus ht with ⟨hne, hk⟩ | ⟨-, t₀, hk, rfl⟩
        · exact ⟨t, hk, rfl, rfl, fun hst => ⟨hst, hne⟩⟩
        · exact ⟨t₀, hk, rfl, rfl, fun hst => by cases hst⟩
      · obtain ⟨hk, hne⟩ := Work.get_settle ht
        exact ⟨t, hk, rfl, rfl, fun hst => ⟨hst, hne⟩⟩
    | interrupted d =>
      rw [hd] at ho hbase hn
      obtain ⟨a, hatt⟩ := ho
      refine h.settle (by simp [Event.schedules, hd]) (by simp [Event.allocates, hd]) hbase hn hatt
        (h.settles_interrupted hd hatt) fun k t ht => ?_
      rcases Work.get_setStatus ht with ⟨hne, hk⟩ | ⟨-, t₀, hk, rfl⟩
      · exact ⟨t, hk, rfl, rfl, fun hst => ⟨hst, hne⟩⟩
      · exact ⟨t₀, hk, rfl, rfl, fun hst => by cases hst⟩
    | timer d =>
      rw [hd] at ho others
      exact others (by simp [Event.schedules, hd]) (by simp [settles, hd])
        (fun m hm => by simp only [Event.allocates, hd, Option.some.injEq] at hm; exact ⟨hm ▸ ho.1, hm ▸ le_max_right _ _⟩)
        fun k t ht => ht
    | child d =>
      rw [hd] at ho others
      exact others (by simp [Event.schedules, hd]) (by simp [settles, hd])
        (fun m hm => by simp only [Event.allocates, hd, Option.some.injEq] at hm; exact ⟨hm ▸ ho.1, hm ▸ le_max_right _ _⟩)
        fun k t ht => ht
    | started d => rw [hd] at hb; cases hb
    | forked d => rw [hd] at hb; cases hb
    | _ =>
      rw [hd] at ho others
      refine others (by simp [Event.schedules, hd]) (by simp [settles, hd]) (by simp [Event.allocates, hd]) fun k t ht => ?_
      cases task_step ho rfl ht with
      | kept h => exact h
      | scheduled d' hp => cases hp
      | retrying d' t' hp => cases hp
      | interrupted d' t' hp => cases hp

/-! ## What became of every attempt -/

/-- Every scheduled attempt was settled or cancelled, or is still in flight. -/
def Pending (l : List Event) (w : Work) : Prop :=
  ∀ a ∈ scheduled l, a ∈ settled l ∨ a ∈ dropped l ∨
    ∃ t, w.tasks[a.key]? = some t ∧ t.generation = a.generation ∧ t.attempt = a.attempt ∧ t.status = .scheduled

/-- The event about the task of an attempt in flight settles or cancels that attempt. -/
theorem Traced.answers (h : Traced fl base l s.work) (ho : Offer fl base s ev.data) {a : Attempt} (ha : a ∈ scheduled l)
    {t : Task} (ht : s.work.tasks[a.key]? = some t) (hg : t.generation = a.generation) (hatt : t.attempt = a.attempt)
    (hst : t.status = .scheduled) (hk : ev.data.taskKey = some a.key) : settles l ev = some a ∨ drops l ev = some a := by
  have hb : base < t.generation := hg ▸ (h.bound a ha).1
  have attempting : ∀ {key : String} {g i : Nat}, key = a.key → s.work.Attempting base key g i →
      (⟨key, g, i⟩ : Attempt) = a := by
    rintro key g i rfl ⟨t', ht', -, rfl, rfl, -⟩
    cases ht.symm.trans ht'
    rw [hg, hatt]
  cases hd : ev.data <;> simp only [hd, Payload.taskKey, Option.some.injEq, reduceCtorEq] at hk <;> rw [hd] at ho
  case scheduled d =>
    -- a first attempt replaces no attempt of this log, a retry follows one that failed
    rcases ho.1 with ⟨-, -, hold⟩ | ⟨t', ht', hret, -⟩
    · rw [hk] at hold
      exact absurd (hold t ht hst) (by omega)
    · rw [hk] at ht'
      cases ht.symm.trans ht'
      cases hst.symm.trans hret
  case nodeDone d => exact .inl (by simp only [settles, hd, attempting hk ho])
  case nodeFail d => exact .inl (by simp only [settles, hd, attempting hk ho.1])
  case interrupted d =>
    obtain ⟨i, hi⟩ := ho
    exact .inl (by rw [h.settles_interrupted hd hi, attempting hk hi])
  case nodeCancel d =>
    refine .inr ?_
    simp only [drops, hd, hk]
    rw [h.last ht hb, hg, hatt]

theorem Pending.step (h : Pending l s.work) (htr : Traced fl base l s.work) (ho : Offer fl base s ev.data)
    (hb : ev.data.begins = false) (hterm : ev.data.terminal = false) : Pending (l ++ [ev]) (s.work.step ev.data) := by
  intro a ha
  rw [settled_snoc, dropped_snoc, List.mem_append, List.mem_append, Option.mem_toList, Option.mem_toList]
  rw [scheduled_snoc, List.mem_append, Option.mem_toList] at ha
  rcases ha with ha | ha
  · rcases h a ha with hs | hd | ⟨t, ht, hg, hatt, hst⟩
    · exact .inl (.inl hs)
    · exact .inr (.inl (.inl hd))
    · by_cases hk : ev.data.taskKey = some a.key
      · exact (htr.answers ho ha ht hg hatt hst hk).elim (fun h => .inl (.inr h)) fun h => .inr (.inl (.inr h))
      · exact .inr (.inr ⟨t, (task_kept ho hb hterm hk).trans ht, hg, hatt, hst⟩)
  · -- the attempt the event schedules is in flight after it
    cases hd : ev.data <;> simp only [Event.schedules, hd, Option.some.injEq, reduceCtorEq] at ha
    subst ha
    exact .inr (.inr ⟨_, Std.ExtTreeMap.getElem?_insert_self, rfl, rfl, rfl⟩)

end

/-! ## Whole logs -/

section
variable {x : Ext} {fl : Flow} {base : Nat} {l : List Event} {s s' : State} {ev : Event}

theorem State.finish_terminal (s : State) (ev : Event) : (s.finish ev).status.terminal = s.status.terminal := by
  simp only [State.finish]
  split
  · rfl
  · rename_i h
    simp only [Bool.or_eq_true, not_or, Bool.not_eq_true] at h
    rw [h.1]
    rcases s.recomputeStatus_live with hr | hr <;> rw [hr] <;> rfl

/-- A promised event finishes the execution when it is a terminal one, or the fork of a finished state. -/
theorem Promise.terminal (h : Promise fl base s ev) (ha : s.apply x.quote fl ev = .ok s') :
    s'.status.terminal = true ↔
      ev.data.terminal = true ∨ ∃ d, ev.data = .forked d ∧ (unmarshal d.state).status.terminal = true := by
  obtain ⟨-, s₁, hd, rfl⟩ := State.apply_ok.1 ha
  rw [State.finish_terminal]
  have ho := h.offer
  by_cases hp : ev.data.plain = true
  · rw [(State.applyData_keeps hp hd).status, h.unended]
    cases he : ev.data <;> rw [he] at hp <;> first | cases hp; done | simp [Payload.terminal]
  · cases he : ev.data with
    | started d =>
      rw [State.applyData, he] at hd
      cases hd
      have : (s.applyStarted fl ev.time d).status = .running := rfl
      simp [Payload.terminal, Status.terminal, this]
    | forked d =>
      rw [State.applyData, he] at hd
      cases hd
      have : (State.applyForked d).status = (unmarshal d.state).status := rfl
      simp [Payload.terminal, this]
    | continued d =>
      rw [State.applyData, he] at hd
      rw [he] at ho
      obtain ⟨seg, q, hst⟩ := ho
      cases hd
      have : (unmarshal d.state).status = s.status := by rw [hst]; rfl
      simp [Payload.terminal, this, h.unended]
    | completed d => rw [State.applyData, he] at hd; cases hd; simp [Payload.terminal, State.terminate, Status.terminal]
    | failed d => rw [State.applyData, he] at hd; cases hd; simp [Payload.terminal, State.terminate, Status.terminal]
    | cancelled d => rw [State.applyData, he] at hd; cases hd; simp [Payload.terminal, State.terminate, Status.terminal]
    | _ => rw [he] at hp; exact absurd rfl hp

/-- What the log `l` of an execution and its fold `s` say about each other. -/
structure Logged (fl : Flow) (base : Nat) (l : List Event) (s : State) : Prop where
  events : s.events = l.length
  sound : s.work.Sound fl
  traced : Traced fl base l s.work
  pending : s.status.terminal = false → Pending l s.work

theorem Logged.new (fl : Flow) (base : Nat) (execID : String) : Logged fl base [] (State.new execID) where
  events := rfl
  sound := {
    task := fun h => (Work.none_idle.no_task h).elim
    timer := fun h => by cases get_empty.symm.trans h
    child := fun h => (Work.none_idle.no_child h).elim
    distinct := fun h => (Work.none_idle.no_child h).elim }
  traced := .of_none rfl rfl rfl (fun h => absurd rfl h) fun _ _ h => (Work.none_idle.no_task h).elim
  pending _ _ ha := by cases ha

theorem Logged.step (h : Logged fl base l s) (hp : Promise fl base s ev) (ha : s.apply x.quote fl ev = .ok s') :
    Logged fl base (l ++ [ev]) s' := by
  have hw := State.apply_work ha
  have hl : l = [] ↔ s.events = 0 := by rw [h.events, List.length_eq_zero_iff]
  refine ⟨by rw [hp.events ha, h.events, List.length_append]; rfl, hw ▸ h.sound.step hp.offer,
    hw ▸ h.traced.step h.sound hl hp, fun hun => ?_⟩
  rw [hw]
  by_cases hb : ev.data.begins = true
  · have hnone : ev.schedules = none := by
      cases hd : ev.data <;> rw [hd] at hb <;> first | cases hb; done | simp [Event.schedules, hd]
    intro a hmem
    rw [hl.2 (hp.begins.1 hb), scheduled_snoc, hnone] at hmem
    cases hmem
  · refine (h.pending hp.unended).step h.traced hp.offer (by simpa using hb) ?_
    by_contra ht
    rw [(hp.terminal ha).2 (.inl (by simpa using ht))] at hun
    cases hun

/-- **Every log the program writes.** -/
theorem Path.logged {execID : String} (hp : Path (State.apply x.quote fl) (Promise fl base) (State.new execID) l s) :
    Logged fl base l s := by
  have := hp.logInvariant (I := Logged fl base) (fun _ _ _ _ h hG ha => h.step hG ha) (Logged.new fl base execID)
  simpa using this

/-- The log of a reachable state, event by event. -/
theorem Reachable.prefixes (wf : WellFormed fl) {log : List (List Event)} (h : Reachable x fl s log) :
    ∃ execID s₁, Path (State.apply x.quote fl) (Promise fl (baseOf log)) (State.new execID) log.flatten s₁ ∧ s₁.Alike s := by
  cases h.tracked wf with
  | @absent hl _ execID hs =>
    subst hl
    exact ⟨execID, State.new execID, .nil _, hs⟩
  | @present _ execID s₁ hp ha => exact ⟨execID, s₁, hp, ha⟩

end

/-- The events that end an attempt. -/
def Payload.endsAttempt : Payload → Bool
  | .nodeDone _ | .nodeFail _ | .interrupted _ => true
  | _ => false

/-- **Attempts and numbers of a log.** An attempt is scheduled at most once and settled at most once,
after it was scheduled. Numbers only grow, above what a fork inherited. The attempts of a generation are
1, 2, … up to the node's limit. When the execution completes, every attempt was settled or cancelled. -/
theorem attempts_accounted {x : Ext} {fl : Flow} {s : State} {log : List (List Event)} (hv : validate x fl = [])
    (h : Reachable x fl s log) :
    (scheduled log.flatten).Nodup ∧ (settled log.flatten).Nodup ∧
    (∀ before ev after, log.flatten = before ++ ev :: after → ev.data.endsAttempt = true →
      ∃ a ∈ scheduled before, settles before ev = some a) ∧
    (numbers log.flatten).Pairwise (· < ·) ∧ (∀ m ∈ numbers log.flatten, baseOf log < m) ∧
    (∀ g, ∃ m, attemptsOf g log.flatten = List.range' 1 m) ∧
    (∀ ev ∈ log.flatten, ∀ d, ev.data = .scheduled d →
      ∃ nd, fl.node d.node = some nd ∧ (d.attempt : Int) ≤ nd.maxAttempts) ∧
    ∀ before ev after d, log.flatten = before ++ ev :: after → ev.data = .completed d →
      ∀ a ∈ scheduled before, a ∈ settled before ∨ a ∈ dropped before := by
  obtain ⟨execID, s₁, hp, -⟩ := h.prefixes (wellFormed_of_validate hv)
  have htr := (Path.logged hp).traced
  refine ⟨htr.once, htr.settledOnce, fun before ev after hl hev => ?_, htr.increasing, fun m hm => (htr.numbered m hm).1,
    htr.attempts, htr.limit, fun before ev after d hl hev a ha => ?_⟩
  · rw [hl] at hp
    obtain ⟨s₀, hbefore, hrest⟩ := hp.split
    cases hrest with
    | cons guard _ _ =>
      have ho := guard.offer
      have htr := (Path.logged hbefore).traced
      have last : ∀ {key : String} {g i : Nat}, s₀.work.Attempting (baseOf log) key g i → ⟨key, g, i⟩ ∈ scheduled before := by
        rintro key g i ⟨t, ht, -, rfl, rfl, hb⟩
        exact lastRun_mem (htr.last ht hb)
      cases hd : ev.data <;> simp only [hd, Payload.endsAttempt, Bool.false_eq_true] at hev <;> rw [hd] at ho
      case nodeDone d => exact ⟨_, last ho, by simp only [settles, hd]⟩
      case nodeFail d => exact ⟨_, last ho.1, by simp only [settles, hd]⟩
      case interrupted d =>
        obtain ⟨i, hi⟩ := ho
        exact ⟨_, last hi, htr.settles_interrupted hd hi⟩
  · rw [hl] at hp
    obtain ⟨s₀, hbefore, hrest⟩ := hp.split
    cases hrest with
    | cons guard _ _ =>
      have hidle : s₀.work.Idle := by
        have ho := guard.offer
        rw [hev] at ho
        exact ho
      rcases (Path.logged hbefore).pending guard.unended a ha with hs | hd | ⟨t, ht, -⟩
      · exact .inl hs
      · exact .inr hd
      · exact (hidle.no_task ht).elim

def doneReview : Outcome := decide plainExt oneTask startedReview.state completeDraft 2

def reviewLog : List (List Event) := record (record [] startedReview.events) doneReview.events

theorem reviewLog_reachable : Reachable plainExt oneTask doneReview.state reviewLog :=
  startedReview_reachable.command completeDraft 2 (by decide +kernel)

theorem reviewLog_accounted :
    scheduled reviewLog.flatten = [⟨"draft", 1, 1⟩] ∧ (scheduled reviewLog.flatten).Nodup ∧ (settled reviewLog.flatten).Nodup :=
  have h := attempts_accounted oneTask_valid reviewLog_reachable
  ⟨by decide +kernel, h.1, h.2.1⟩

/-! ## The end of a log -/

section
variable {x : Ext} {fl : Flow} {base : Nat} {l : List Event} {s s' : State}

/-- Nothing is written after the end. -/
theorem Path.nil_of_ended (hp : Path (State.apply x.quote fl) (Promise fl base) s l s') (h : s.status.terminal = true) :
    l = [] := by
  cases hp with
  | nil => rfl
  | cons guard _ _ => cases h.symm.trans guard.unended

theorem Path.terminal_last {before after : List Event} {ev : Event}
    (hp : Path (State.apply x.quote fl) (Promise fl base) s (before ++ ev :: after) s') (ht : ev.data.terminal = true) :
    after = [] ∧ s'.status.terminal = true := by
  obtain ⟨s₀, -, hrest⟩ := hp.split
  cases hrest with
  | cons guard ok hafter =>
    have hend := (guard.terminal ok).2 (.inl ht)
    have hnil := Path.nil_of_ended hafter hend
    subst hnil
    rw [hafter.eq_of_nil]
    exact ⟨rfl, hend⟩

/-- Along promised events an execution finishes by a terminal event or by the fork of a finished state. -/
theorem Path.terminal_of_ended (hp : Path (State.apply x.quote fl) (Promise fl base) s l s') (hs : s.status.terminal = false)
    (h : s'.status.terminal = true) :
    ∃ ev ∈ l, ev.data.terminal = true ∨
      l.head? = some ev ∧ ∃ d, ev.data = .forked d ∧ (unmarshal d.state).status.terminal = true := by
  induction hp with
  | nil => cases h.symm.trans hs
  | @cons s s₁ s₂ ev es guard ok rest ih =>
    by_cases h₁ : s₁.status.terminal = true
    · exact ⟨ev, List.mem_cons_self, ((guard.terminal ok).1 h₁).imp_right fun hd => ⟨rfl, hd⟩⟩
    · obtain ⟨ev', hmem, hev⟩ := ih (by simpa using h₁) h
      refine ⟨ev', List.mem_cons_of_mem _ hmem, .inl (hev.resolve_right ?_)⟩
      -- a fork is a first event, and this one follows another
      rintro ⟨hhead, d, hd, -⟩
      cases rest with
      | nil => cases hhead
      | cons guard' _ _ =>
        cases hhead
        have := guard'.begins.1 (by rw [hd]; rfl)
        rw [guard.events ok] at this
        cases this

theorem record_ne_nil {log : List (List Event)} (h : ∀ d ∈ log, d ≠ []) (evs : List Event) : ∀ d ∈ record log evs, d ≠ [] := by
  intro d hd
  unfold record at hd
  split at hd
  · exact h d hd
  · rename_i hne
    rcases List.mem_append.1 hd with hd | hd
    · exact h d hd
    · rw [List.mem_singleton.1 hd]
      simpa using hne

theorem Reachable.decisions_ne_nil {log : List (List Event)} (h : Reachable x fl s log) : ∀ d ∈ log, d ≠ [] := by
  induction h with
  | new => exact fun _ hd => by cases hd
  | step _ _ _ _ _ _ ih _ => exact record_ne_nil ih _
  | reload _ _ ih => exact ih

end

/-- **At most one terminal event, and nothing after it.** It is the last event of its decision, its
decision is the last of the log, and no request writes anything afterwards. Unless the execution is the
fork of a finished one, it is finished exactly when its log holds a terminal event. -/
theorem terminal_event_last {x : Ext} {fl : Flow} {s : State} {log : List (List Event)} (hv : validate x fl = [])
    (h : Reachable x fl s log) :
    (log.flatten.filter fun ev => ev.data.terminal).length ≤ 1 ∧
    (∀ ds d rest before ev after, log = ds ++ d :: rest → d = before ++ ev :: after → ev.data.terminal = true →
      after = [] ∧ rest = []) ∧
    ((∃ ev ∈ log.flatten, ev.data.terminal = true) → ∀ (req : Request) (now : Time) (evs : List Event), req.Sourced x fl →
      (req.perform x fl s now).result = .ok evs → evs = []) ∧
    ((∀ ev d, log.flatten.head? = some ev → ev.data = .forked d → (unmarshal d.state).status.terminal = false) →
      (s.status.terminal = true ↔ ∃ ev ∈ log.flatten, ev.data.terminal = true)) := by
  have wf := wellFormed_of_validate hv
  obtain ⟨execID, s₁, hp, hs⟩ := h.prefixes wf
  have ended : (∃ ev ∈ log.flatten, ev.data.terminal = true) → s.status.terminal = true := by
    rintro ⟨ev, hev, ht⟩
    obtain ⟨before, after, hl⟩ := List.append_of_mem hev
    rw [hl] at hp
    exact hs.status ▸ (Path.terminal_last hp ht).2
  refine ⟨?_, fun ds d rest before ev after hlog hd ht => ?_, fun hev req now evs hsrc hok => ?_, fun hfork => ⟨fun he => ?_, ended⟩⟩
  · -- two terminal events would leave the second one after the first
    cases hf : log.flatten.filter fun ev => ev.data.terminal with
    | nil => simp
    | cons ev es =>
      obtain ⟨before, after, hl, -, hev, hes⟩ := List.filter_eq_cons_iff.1 hf
      rw [hl] at hp
      have := (Path.terminal_last hp hev).1
      subst this
      rw [← hes]
      simp
  · subst hlog hd
    have hflat : (ds ++ (before ++ ev :: after) :: rest).flatten = (ds.flatten ++ before) ++ ev :: (after ++ rest.flatten) := by
      simp
    rw [hflat] at hp
    obtain ⟨ha, hr⟩ := List.append_eq_nil_iff.1 (Path.terminal_last hp ht).1
    refine ⟨ha, ?_⟩
    cases rest with
    | nil => rfl
    | cons d₂ ds₂ =>
      rw [List.flatten_cons, List.append_eq_nil_iff] at hr
      exact absurd hr.1 (h.decisions_ne_nil d₂ (by simp))
  · obtain ⟨b, hd⟩ := h.decides wf hsrc now
    by_contra hne
    exact hne (Path.nil_of_ended (hd.wrote hok hne).1 (ended hev))
  · have hend : s₁.status.terminal = true := hs.status ▸ he
    obtain ⟨ev, hmem, ht | ⟨hhead, d, hd, hfin⟩⟩ := Path.terminal_of_ended hp rfl hend
    · exact ⟨ev, hmem, ht⟩
    · cases (hfork ev d hhead hd).symm.trans hfin

theorem reviewLog_ended : doneReview.state.status.terminal = true ∧ ∃ ev ∈ reviewLog.flatten, ev.data.terminal = true := by
  have hend : doneReview.state.status.terminal = true := by decide +kernel
  refine ⟨hend, ((terminal_event_last oneTask_valid reviewLog_reachable).2.2.2 fun ev d hhead hd => ?_).1 hend⟩
  have hfirst : (reviewLog.flatten.head?).map (fun ev => ev.data.isForked) = some false := by decide +kernel
  rw [hhead, Option.map_some, hd] at hfirst
  cases hfirst

end Packtrail
