import Packtrail.State
import Packtrail.Lib.Transition

/-
# The per-key concurrency limit

`worker/semaphore.go`: the holders of one concurrency key are the value of one key of the `sem` bucket, changed by
compare-and-swap. A holder is a job (`wire.JobMsgID`), not a delivery of it.

| here | there |
| --- | --- |
| `Sem`                   | the entry of the key: revision and `semValue` (0 is no entry) |
| `grant`, `renewed`, `released` | the functions `acquire`, `renewSlot` and the release hand to `casSem` (`:212-227`, `:264-272`, `:236-242`) |
| `Pool.write`            | `kv.Create` and `kv.Update` |
| `Delivery`              | one delivery of a job in a worker: `handle` up to the handler, its `renewSlot` beside it |
| `Pool.step`             | one step of one delivery; it may be held up or crash between any two |

A worker reads what the entry is or was; a write lands only on the revision that was read, and its acknowledgement may be lost.
Every job carries the `max` of its node and every worker has its own lease. `max` is positive in a validated flow
(`flow/validate.go:415`), so the jobs that need no slot never come here.

**`concurrency_limit_holds`**: as long as no held lease expires and no delivery releases a slot that another delivery of the same job
still works under, at most `max` jobs are inside their handlers.
-/

namespace Packtrail

open Transition

structure Sem where
  rev : Nat := 0
  holders : SMap Time := ∅

/-- Expired holders are dropped; a job that holds a slot already keeps it. -/
def grant (max : Nat) (job : String) (now lease : Time) (holders : SMap Time) : Option (SMap Time) :=
  let live := holders.filter fun _ exp => !Decidable.decide (exp < now)
  if job ∉ live ∧ max ≤ live.size then none else some (live.insert job (now + lease))

def renewed (job : String) (now lease : Time) (holders : SMap Time) : Option (SMap Time) :=
  if job ∈ holders then some (holders.insert job (now + lease)) else none

def released (job : String) (holders : SMap Time) : SMap Time := holders.erase job

inductive SlotStage
  | waiting
  /-- The slot is granted, the handler not called yet. -/
  | holding
  | inside
  /-- The handler has returned, the slot is not released yet. -/
  | leaving
  deriving DecidableEq, Repr

structure Delivery where
  job : String
  stage : SlotStage := .waiting
  /-- What `casSem` has read. -/
  seen : Option Sem := none
  /-- What `renewSlot` has read. -/
  renewal : Option Sem := none

/-- Works under its slot. -/
def Delivery.active (d : Delivery) : Bool := d.stage = .holding || d.stage = .inside

structure Pool where
  sem : Sem := {}
  deliveries : Nat → Option Delivery := fun _ => none

namespace Pool

variable (p : Pool)

def set (i : Nat) (d : Option Delivery) : Pool := { p with deliveries := fun j => if j = i then d else p.deliveries j }

/-- The write of a compare-and-swap that read `v`, stored under revision `rev`. -/
def write (v : Sem) (holders : SMap Time) (rev : Nat) : Option Pool :=
  if v.rev = p.sem.rev ∧ p.sem.rev < rev then some { p with sem := ⟨rev, holders⟩ } else none

end Pool

inductive SlotAction
  /-- A delivery, a redelivery, or a copy that was handed back. -/
  | deliver (i : Nat) (job : String)
  | read (i : Nat) (v : Sem)
  | acquire (i : Nat) (now lease : Time) (rev : Nat) (acked : Bool)
  /-- The write conflicts, or fails, or the key is busy. -/
  | retry (i : Nat)
  | handBack (i : Nat)
  | enter (i : Nat)
  | leave (i : Nat)
  | release (i rev : Nat) (acked : Bool)
  /-- The release conflicts too often: the lease runs out by itself. -/
  | giveUp (i : Nat)
  | readRenewal (i : Nat) (v : Sem)
  | renew (i : Nat) (now lease : Time) (rev : Nat)
  | crash (i : Nat)

/-- Delivery `i` goes on as `f` says, if it is there in stage `stage`. -/
def Pool.at (p : Pool) (i : Nat) (stage : SlotStage) (f : Delivery → Option Pool) : Option Pool :=
  match p.deliveries i with
  | none => none
  | some d => if d.stage = stage then f d else none

/-- `max job` is the limit the job carries. -/
def Pool.step (max : String → Nat) (p : Pool) : SlotAction → Option Pool
  | .deliver i job => if (p.deliveries i).isNone then some (p.set i (some { job })) else none
  | .read i v => do
      let d ← p.deliveries i
      if d.active then none else some (p.set i (some { d with seen := some v }))
  | .acquire i now lease rev acked => p.at i .waiting fun d => do
      let v ← d.seen
      let holders ← grant (max d.job) d.job now lease v.holders
      let p ← p.write v holders rev
      return p.set i (some { d with seen := none, stage := if acked then .holding else .waiting })
  | .retry i => (p.deliveries i).map fun d => p.set i (some { d with seen := none })
  | .handBack i => p.at i .waiting fun _ => some (p.set i none)
  | .enter i => p.at i .holding fun d => some (p.set i (some { d with stage := .inside }))
  | .leave i => p.at i .inside fun d => some (p.set i (some { d with stage := .leaving }))
  | .release i rev acked => p.at i .leaving fun d => do
      let v ← d.seen
      let p ← p.write v (released d.job v.holders) rev
      return p.set i (if acked then none else some { d with seen := none })
  | .giveUp i => p.at i .leaving fun _ => some (p.set i none)
  | .readRenewal i v => (p.deliveries i).map fun d => p.set i (some { d with renewal := some v })
  | .renew i now lease rev => do
      let d ← p.deliveries i
      let v ← d.renewal
      let holders ← renewed d.job now lease v.holders
      let p ← p.write v holders rev
      return p.set i (some { d with renewal := none })
  | .crash i => some (p.set i none)

/-- `v` is what the entry is, or was. -/
def Sem.Seen (sem v : Sem) : Prop := v.rev ≤ sem.rev ∧ (v.rev = sem.rev → v = sem)

def SlotAction.view : SlotAction → Option Sem
  | .read _ v | .readRenewal _ v => some v
  | _ => none

structure SlotStep (max : String → Nat) (p : Pool) (act : SlotAction) (p' : Pool) : Prop where
  view : ∀ v, act.view = some v → p.sem.Seen v
  next : p.step max act = some p'

/-! ## What every step keeps -/

theorem Sem.Seen.refl (sem : Sem) : sem.Seen sem := ⟨le_refl _, fun _ => rfl⟩

theorem Sem.Seen.advance {sem sem' v : Sem} (h : sem.Seen v) (hrev : sem.rev < sem'.rev) : sem'.Seen v := by
  constructor
  · exact h.1.trans hrev.le
  · intro he
    have hle := h.1
    omega

/-- What a delivery has read was once the entry, and the job it works on holds a slot. -/
structure Sem.Fits (sem : Sem) (d : Delivery) : Prop where
  seen : ∀ v, d.seen = some v → sem.Seen v
  renewal : ∀ v, d.renewal = some v → sem.Seen v
  held : d.active = true → d.job ∈ sem.holders

structure Pool.Sound (m : Nat) (p : Pool) : Prop where
  fits : ∀ i d, p.deliveries i = some d → p.sem.Fits d
  size : p.sem.holders.size ≤ m

theorem Sem.Fits.advance {sem sem' : Sem} {d : Delivery} (h : sem.Fits d) (hrev : sem.rev < sem'.rev)
    (hheld : d.active = true → d.job ∈ sem'.holders) : sem'.Fits d where
  seen := fun v hv => (h.seen v hv).advance hrev
  renewal := fun v hv => (h.renewal v hv).advance hrev
  held := hheld

namespace Pool

variable {m : Nat} {p p' : Pool} {i : Nat} {d : Delivery}

theorem Sound.set {d' : Option Delivery} (h : p.Sound m) (hd : ∀ d, d' = some d → p.sem.Fits d) : (p.set i d').Sound m where
  fits := by
    intro j d hj
    by_cases hji : j = i
    · simp only [Pool.set, hji, if_true] at hj
      exact hd d hj
    · simp only [Pool.set, hji, if_false] at hj
      exact h.fits j d hj
  size := h.size

/-- A write keeps a pool sound if it keeps the slots of the others. -/
theorem Sound.write {sem : Sem} {d' : Option Delivery} (h : p.Sound m) (hrev : p.sem.rev < sem.rev) (hsize : sem.holders.size ≤ m)
    (hkept : ∀ j d, j ≠ i → p.deliveries j = some d → d.active = true → d.job ∈ sem.holders)
    (hd : ∀ d, d' = some d → sem.Fits d) : ({ p with sem }.set i d' : Pool).Sound m where
  fits := by
    intro j d hj
    by_cases hji : j = i
    · simp only [Pool.set, hji, if_true] at hj
      exact hd d hj
    · simp only [Pool.set, hji, if_false] at hj
      exact (h.fits j d hj).advance hrev (hkept j d hji hj)
  size := hsize

theorem of_at {stage : SlotStage} {f : Delivery → Option Pool} (h : p.at i stage f = some p') :
    ∃ d, p.deliveries i = some d ∧ d.stage = stage ∧ f d = some p' := by
  cases hd : p.deliveries i with
  | none => simp [Pool.at, hd] at h
  | some d =>
    by_cases hstage : d.stage = stage
    · exact ⟨d, rfl, hstage, by simpa [Pool.at, hd, hstage] using h⟩
    · simp [Pool.at, hd, hstage] at h

/-- A write that lands was made from the entry as it is. -/
theorem of_write {v : Sem} {holders : SMap Time} {rev : Nat} (hv : p.sem.Seen v) (h : p.write v holders rev = some p') :
    v = p.sem ∧ p.sem.rev < rev ∧ p' = { p with sem := ⟨rev, holders⟩ } := by
  by_cases hrev : v.rev = p.sem.rev ∧ p.sem.rev < rev
  · simp only [Pool.write, hrev, and_self, if_true, Option.some.injEq] at h
    exact ⟨hv.2 hrev.1, hrev.2, h.symm⟩
  · simp [Pool.write, hrev] at h

end Pool

variable {job : String} {holders holders' : SMap Time} {act : SlotAction}

theorem mem_grant {max : Nat} {job' : String} {now lease : Time}
    (h : grant max job now lease holders = some holders')
    (hj : job' = job ∨ ∃ exp, holders[job']? = some exp ∧ ¬ exp < now) : job' ∈ holders' := by
  simp only [grant] at h
  split at h
  · cases h
  · cases h
    rw [Std.ExtTreeMap.mem_insert]
    rcases hj with rfl | ⟨exp, hexp, hlive⟩
    · exact Or.inl (by simp)
    · refine Or.inr ?_
      rw [Std.ExtTreeMap.mem_iff_isSome_getElem?, Std.ExtTreeMap.getElem?_filter]
      simp [hexp, hlive]

theorem size_grant {max : Nat} {now lease : Time}
    (h : grant max job now lease holders = some holders') : holders'.size ≤ Nat.max max holders.size := by
  simp only [grant] at h
  split at h
  · cases h
  · rename_i hfree
    cases h
    have hfilter : (holders.filter fun _ exp => !Decidable.decide (exp < now)).size ≤ holders.size :=
      Std.ExtTreeMap.size_filter_le_size
    rw [Std.ExtTreeMap.size_insert]
    split
    · exact hfilter.trans (Nat.le_max_right _ _)
    · rename_i hout
      have hlt : (holders.filter fun _ exp => !Decidable.decide (exp < now)).size < max := by
        by_contra hge
        exact hfree ⟨hout, not_lt.mp hge⟩
      exact (Nat.succ_le_of_lt hlt).trans (Nat.le_max_left _ _)

theorem mem_renewed {job' : String} {now lease : Time}
    (h : renewed job now lease holders = some holders') (hj : job' ∈ holders) : job' ∈ holders' := by
  simp only [renewed] at h
  split at h
  · cases h
    exact Std.ExtTreeMap.mem_insert.mpr (Or.inr hj)
  · cases h

theorem size_renewed {now lease : Time}
    (h : renewed job now lease holders = some holders') : holders'.size = holders.size := by
  simp only [renewed] at h
  split at h
  · rename_i hmem
    cases h
    rw [Std.ExtTreeMap.size_insert, if_pos (Std.ExtTreeMap.mem_iff_contains.mp hmem)]
  · cases h

/-- No held lease expires: none is over by the clock of a worker that takes a slot. -/
def LeasesHold (p : Pool) : SlotAction → Prop
  | .acquire _ now _ _ _ => ∀ j d, p.deliveries j = some d → d.active = true → ∀ exp, p.sem.holders[d.job]? = some exp → ¬ exp < now
  | _ => True

/-- A delivery that releases its slot is the only one that works on its job. -/
def ReleasesAlone (p : Pool) : SlotAction → Prop
  | .release i _ _ => ∀ d, p.deliveries i = some d → ∀ j d', p.deliveries j = some d' → d'.active = true → d'.job ≠ d.job
  | _ => True

namespace Pool

variable {m : Nat} {max : String → Nat} {p p' : Pool} {i rev : Nat} {now lease : Time} {acked : Bool}

theorem Sound.acquire (h : p.Sound m) (hmax : ∀ job, max job ≤ m) (hleases : LeasesHold p (.acquire i now lease rev acked))
    (hs : p.step max (.acquire i now lease rev acked) = some p') : p'.Sound m := by
  obtain ⟨d, hd, -, hs⟩ := of_at hs
  simp only [Option.bind_eq_bind, Option.bind_eq_some_iff, Option.pure_def, Option.some.injEq] at hs
  obtain ⟨v, hseen, holders, hgrant, p₁, hwrite, rfl⟩ := hs
  have hfit := h.fits i d hd
  obtain ⟨rfl, hrev, rfl⟩ := of_write (hfit.seen v hseen) hwrite
  refine h.write hrev ((size_grant hgrant).trans (max_le (hmax d.job) h.size)) ?_ ?_
  · intro j d' _ hj hact
    have hheld := (h.fits j d' hj).held hact
    obtain ⟨exp, hexp⟩ := Option.isSome_iff_exists.mp (Std.ExtTreeMap.mem_iff_isSome_getElem?.mp hheld)
    exact mem_grant hgrant (Or.inr ⟨exp, hexp, hleases j d' hj hact exp hexp⟩)
  · rintro d' ⟨⟩
    constructor
    · rintro v ⟨⟩
    · intro v hv
      exact (hfit.renewal v hv).advance hrev
    · intro _
      exact mem_grant hgrant (Or.inl rfl)

theorem Sound.release (h : p.Sound m) (halone : ReleasesAlone p (.release i rev acked))
    (hs : p.step max (.release i rev acked) = some p') : p'.Sound m := by
  obtain ⟨d, hd, hstage, hs⟩ := of_at hs
  simp only [Option.bind_eq_bind, Option.bind_eq_some_iff, Option.pure_def, Option.some.injEq] at hs
  obtain ⟨v, hseen, p₁, hwrite, rfl⟩ := hs
  have hfit := h.fits i d hd
  obtain ⟨rfl, hrev, rfl⟩ := of_write (hfit.seen v hseen) hwrite
  refine h.write hrev (Std.ExtTreeMap.size_erase_le.trans h.size) ?_ ?_
  · intro j d' _ hj hact
    simp only [released, Std.ExtTreeMap.mem_erase]
    have hother : d.job ≠ d'.job := fun he => halone d hd j d' hj hact he.symm
    exact ⟨by simpa using hother, (h.fits j d' hj).held hact⟩
  · intro d' hd'
    cases acked
    · cases hd'
      constructor
      · rintro v ⟨⟩
      · intro v hv
        exact (hfit.renewal v hv).advance hrev
      · intro hact
        simp [Delivery.active, hstage] at hact
    · cases hd'

theorem Sound.renew (h : p.Sound m) (hs : p.step max (.renew i now lease rev) = some p') : p'.Sound m := by
  simp only [Pool.step, Option.bind_eq_bind, Option.bind_eq_some_iff, Option.pure_def, Option.some.injEq] at hs
  obtain ⟨d, hd, v, hseen, holders, hrenewed, p₁, hwrite, rfl⟩ := hs
  have hfit := h.fits i d hd
  obtain ⟨rfl, hrev, rfl⟩ := of_write (hfit.renewal v hseen) hwrite
  refine h.write hrev ((size_renewed hrenewed).trans_le h.size) ?_ ?_
  · intro j d' _ hj hact
    exact mem_renewed hrenewed ((h.fits j d' hj).held hact)
  · rintro d' ⟨⟩
    constructor
    · intro v hv
      exact (hfit.seen v hv).advance hrev
    · rintro v ⟨⟩
    · intro hact
      exact mem_renewed hrenewed (hfit.held hact)

end Pool

/-- The steps that do not write the entry change one delivery, which keeps what it holds. -/
theorem Pool.Sound.step {m : Nat} {max : String → Nat} {p p' : Pool} (h : p.Sound m) (hmax : ∀ job, max job ≤ m)
    (hleases : LeasesHold p act) (halone : ReleasesAlone p act) (hs : SlotStep max p act p') : p'.Sound m := by
  obtain ⟨hview, hs⟩ := hs
  cases act with
  | acquire i now lease rev acked => exact h.acquire hmax hleases hs
  | release i rev acked => exact h.release halone hs
  | renew i now lease rev => exact h.renew hs
  | deliver i job =>
    simp only [Pool.step] at hs
    split at hs <;> cases hs
    refine h.set ?_
    rintro d ⟨⟩
    constructor <;> simp [Delivery.active]
  | read i v =>
    simp only [Pool.step, Option.bind_eq_bind, Option.bind_eq_some_iff] at hs
    obtain ⟨d, hd, hs⟩ := hs
    split at hs <;> cases hs
    refine h.set ?_
    rintro d' ⟨⟩
    exact { h.fits i d hd with seen := by rintro v' ⟨⟩; exact hview v rfl }
  | readRenewal i v =>
    obtain ⟨d, hd, rfl⟩ := Option.map_eq_some_iff.mp hs
    refine h.set ?_
    rintro d' ⟨⟩
    exact { h.fits i d hd with renewal := by rintro v' ⟨⟩; exact hview v rfl }
  | retry i =>
    obtain ⟨d, hd, rfl⟩ := Option.map_eq_some_iff.mp hs
    refine h.set ?_
    rintro d' ⟨⟩
    exact { h.fits i d hd with seen := by rintro v ⟨⟩ }
  | enter i =>
    obtain ⟨d, hd, hstage, hs⟩ := of_at hs
    cases hs
    refine h.set ?_
    rintro d' ⟨⟩
    exact { h.fits i d hd with held := fun _ => (h.fits i d hd).held (by simp [Delivery.active, hstage]) }
  | leave i =>
    obtain ⟨d, hd, hstage, hs⟩ := of_at hs
    cases hs
    refine h.set ?_
    rintro d' ⟨⟩
    exact { h.fits i d hd with held := by intro hact; simp [Delivery.active] at hact }
  | handBack i | giveUp i =>
    obtain ⟨d, hd, hstage, hs⟩ := of_at hs
    cases hs
    refine h.set ?_
    rintro d' ⟨⟩
  | crash i =>
    cases hs
    refine h.set ?_
    rintro d' ⟨⟩

theorem Pool.Sound.empty (m : Nat) : ({} : Pool).Sound m where
  fits := by rintro i d ⟨⟩
  size := by simp

/-! ## The limit -/

/-- Some delivery of the job is inside its handler. -/
def Pool.Inside (p : Pool) (job : String) : Prop := ∃ i d, p.deliveries i = some d ∧ d.job = job ∧ d.stage = .inside

theorem Pool.Sound.inside_mem {m : Nat} {p : Pool} (h : p.Sound m) (hin : p.Inside job) : job ∈ p.sem.holders := by
  obtain ⟨i, d, hd, rfl, hstage⟩ := hin
  exact (h.fits i d hd).held (by simp [Delivery.active, hstage])

theorem Pool.Sound.bound {m : Nat} {p : Pool} {jobs : List String} (h : p.Sound m) (hnodup : jobs.Nodup)
    (hin : ∀ job ∈ jobs, p.Inside job) : jobs.length ≤ m := by
  have hsub : jobs ⊆ p.sem.holders.keys := by
    intro job hj
    exact Std.ExtTreeMap.mem_keys.mpr (h.inside_mem (hin job hj))
  calc jobs.length ≤ p.sem.holders.keys.length := (hnodup.subperm hsub).length_le
    _ = p.sem.holders.size := Std.ExtTreeMap.length_keys
    _ ≤ m := h.size

/-- As long as no held lease expires and slots are released alone, at most `m` jobs of the key are inside their handlers. -/
theorem concurrency_limit_holds {m : Nat} {max : String → Nat} (hmax : ∀ job, max job ≤ m) {p : Pool}
    (hrun : Run (SlotStep max) (fun p act => LeasesHold p act ∧ ReleasesAlone p act) {} p)
    {jobs : List String} (hnodup : jobs.Nodup) (hin : ∀ job ∈ jobs, p.Inside job) : jobs.length ≤ m := by
  have hsound : p.Sound m := by
    refine hrun.invariant (.empty m) ?_
    intro u act u' hu hok hs
    exact hu.step hmax hok.1 hok.2 hs
  exact hsound.bound hnodup hin

/-! Concrete runs: every read is current, and a slot is taken only while no lease at all is over. -/

def SlotAction.current (p : Pool) : SlotAction → SlotAction
  | .read i _ => .read i p.sem
  | .readRenewal i _ => .readRenewal i p.sem
  | act => act

def Pool.unexpired (p : Pool) : SlotAction → Bool
  | .acquire _ now _ _ _ => p.sem.holders.toList.all fun e => !Decidable.decide (e.2 < now)
  | _ => true

def Pool.trial (max : String → Nat) (p : Pool) (act : SlotAction) : Option Pool :=
  if p.unexpired act then p.step max (act.current p) else none

theorem SlotAction.view_current {p : Pool} {v : Sem} (h : (act.current p).view = some v) : v = p.sem := by
  cases act <;> simp_all [SlotAction.current, SlotAction.view]

theorem Pool.leasesHold_of_unexpired {p : Pool} (h : p.unexpired act = true) : LeasesHold p (act.current p) := by
  cases act with
  | acquire i now lease rev acked =>
    intro j d _ _ exp hexp
    simp only [Pool.unexpired, List.all_eq_true] at h
    simpa using h (d.job, exp) (Std.ExtTreeMap.mem_toList_iff_getElem?_eq_some.mpr hexp)
  | _ => trivial

theorem Pool.run_of_exec {max : String → Nat} {ok : Pool → SlotAction → Prop} {p p' : Pool} {acts : List SlotAction}
    (h₀ : Run (SlotStep max) ok {} p) (hok : ∀ act ∈ acts, ∀ u, LeasesHold u (act.current u) → ok u (act.current u))
    (h : exec (Pool.trial max) p acts = some p') : Run (SlotStep max) ok {} p' := by
  refine h₀.of_exec ?_ h
  intro act hact u u' hu
  simp only [Pool.trial] at hu
  split at hu
  · rename_i hlease
    refine ⟨act.current u, hok act hact u (Pool.leasesHold_of_unexpired hlease), ?_, hu⟩
    intro v hv
    rw [SlotAction.view_current hv]
    exact .refl _
  · cases hu

def SlotAction.delivery : SlotAction → Nat
  | .deliver i _ | .read i _ | .acquire i _ _ _ _ | .retry i | .handBack i | .enter i | .leave i | .release i _ _ | .giveUp i
  | .readRenewal i _ | .renew i _ _ _ | .crash i => i

/-- A step leaves the other deliveries as they are. -/
theorem Pool.step_other {max : String → Nat} {p p' : Pool} {j : Nat} (hs : p.step max act = some p')
    (hj : j ≠ act.delivery) : p'.deliveries j = p.deliveries j := by
  have hset : ∀ (q : Pool) (d : Option Delivery), q.deliveries = p.deliveries →
      (q.set act.delivery d).deliveries j = p.deliveries j := by
    intro q d hq
    simp [Pool.set, hj, hq]
  have hwrite : ∀ {v : Sem} {holders : SMap Time} {rev : Nat} {q : Pool}, p.write v holders rev = some q →
      q.deliveries = p.deliveries := by
    intro v holders rev q hq
    unfold Pool.write at hq
    split at hq <;> cases hq
    rfl
  cases act with
  | acquire i =>
    obtain ⟨d, -, -, hs⟩ := of_at hs
    simp only [Option.bind_eq_bind, Option.bind_eq_some_iff, Option.pure_def, Option.some.injEq] at hs
    obtain ⟨v, -, holders, -, q, hq, rfl⟩ := hs
    exact hset q _ (hwrite hq)
  | release i =>
    obtain ⟨d, -, -, hs⟩ := of_at hs
    simp only [Option.bind_eq_bind, Option.bind_eq_some_iff, Option.pure_def, Option.some.injEq] at hs
    obtain ⟨v, -, q, hq, rfl⟩ := hs
    exact hset q _ (hwrite hq)
  | renew i =>
    simp only [Pool.step, Option.bind_eq_bind, Option.bind_eq_some_iff, Option.pure_def, Option.some.injEq] at hs
    obtain ⟨d, -, v, -, holders, -, q, hq, rfl⟩ := hs
    exact hset q _ (hwrite hq)
  | handBack i | enter i | leave i | giveUp i =>
    obtain ⟨d, -, -, hs⟩ := of_at hs
    cases hs
    exact hset p _ rfl
  | retry i | readRenewal i =>
    obtain ⟨d, -, rfl⟩ := Option.map_eq_some_iff.1 hs
    exact hset p _ rfl
  | read i =>
    simp only [Pool.step, Option.bind_eq_bind, Option.bind_eq_some_iff] at hs
    obtain ⟨d, -, hs⟩ := hs
    split at hs <;> cases hs
    exact hset p _ rfl
  | deliver i =>
    simp only [Pool.step] at hs
    split at hs <;> cases hs
    exact hset p _ rfl
  | crash i =>
    cases hs
    exact hset p _ rfl

/-- Only the deliveries that come in are there. -/
theorem Pool.exec_absent {max : String → Nat} {p p' : Pool} {acts : List SlotAction} {j : Nat} (hp : p.deliveries j = none)
    (hacts : ∀ act ∈ acts, act.delivery ≠ j) (h : exec (Pool.trial max) p acts = some p') : p'.deliveries j = none := by
  induction acts generalizing p with
  | nil =>
    cases h
    exact hp
  | cons act acts ih =>
    simp only [exec] at h
    cases hn : p.trial max act with
    | none => rw [hn] at h; cases h
    | some u =>
      rw [hn] at h
      refine ih ?_ (fun a ha => hacts a (List.mem_cons_of_mem _ ha)) h
      simp only [Pool.trial] at hn
      split at hn
      · rw [Pool.step_other hn, hp]
        have hcur : (act.current p).delivery = act.delivery := by cases act <;> rfl
        exact hcur ▸ (hacts act List.mem_cons_self).symm
      · cases hn

def Pool.isInside (p : Pool) (i : Nat) (job : String) : Bool :=
  match p.deliveries i with
  | none => false
  | some d => d.job == job && d.stage == .inside

theorem Pool.inside_of_isInside {p : Pool} {i : Nat} (h : p.isInside i job = true) : p.Inside job := by
  cases hd : p.deliveries i with
  | none => simp [Pool.isInside, hd] at h
  | some d =>
    simp only [Pool.isInside, hd, Bool.and_eq_true, beq_iff_eq] at h
    exact ⟨i, d, hd, h.1, h.2⟩

/-- Delivery `i` of `job` comes in, gets its slot and calls the handler. -/
def takesSlot (i : Nat) (job : String) (now : Time) (rev : Nat) : List SlotAction :=
  [.deliver i job, .read i {}, .acquire i now 30 rev true, .enter i]

/-- Two slots, both taken; the first job is done and about to give its slot back. -/
def bothTaken : List SlotAction :=
  takesSlot 0 "job.r1.work.0.1" 1 1 ++ takesSlot 1 "job.r2.work.0.1" 2 2 ++ [.leave 0, .read 0 {}]

def leavingPool : Pool := (exec (Pool.trial fun _ => 2) {} bothTaken).get (by decide +kernel)

def freedPool : Pool := (leavingPool.step (fun _ => 2) (.release 0 3 true)).get (by decide +kernel)

/-- A third job gets it. -/
def handedPool : Pool := (exec (Pool.trial fun _ => 2) freedPool (takesSlot 2 "job.r3.work.0.1" 3 4)).get (by decide +kernel)

theorem leavingPool_eq : exec (Pool.trial fun _ => 2) {} bothTaken = some leavingPool := (Option.some_get _).symm

theorem leavingPool_alone : ReleasesAlone leavingPool (.release 0 3 true) := by
  have hfew : [0, 1].all (fun j => (leavingPool.deliveries j).all fun d => d.job == "job.r1.work.0.1" && !d.active ||
      d.job == "job.r2.work.0.1") = true ∧ (leavingPool.deliveries 0).all (fun d => d.job == "job.r1.work.0.1") = true := by
    decide +kernel
  intro d hd j d' hj hact
  have hd : d.job = "job.r1.work.0.1" := by simpa [hd] using hfew.2
  have hlow : j = 0 ∨ j = 1 := by
    by_contra hno
    have hacts : ∀ act ∈ bothTaken, act.delivery ≠ j := by
      simp only [bothTaken, takesSlot, List.cons_append, List.nil_append, List.mem_cons, List.not_mem_nil, or_false]
      rintro act (rfl | rfl | rfl | rfl | rfl | rfl | rfl | rfl | rfl | rfl) <;> simp only [SlotAction.delivery] <;> omega
    have habsent : leavingPool.deliveries j = none := Pool.exec_absent (p := {}) rfl hacts leavingPool_eq
    rw [habsent] at hj
    cases hj
  have hjob := List.all_eq_true.1 hfew.1 j (by simpa using hlow)
  rw [hj] at hjob
  have hother : d'.job = "job.r2.work.0.1" := by simpa [hact] using hjob
  rw [hd, hother]
  decide

theorem handedPool_within : handedPool.Inside "job.r2.work.0.1" ∧ handedPool.Inside "job.r3.work.0.1" ∧
    ∀ jobs : List String, jobs.Nodup → (∀ job ∈ jobs, handedPool.Inside job) → jobs.length ≤ 2 := by
  have hin : (handedPool.isInside 1 "job.r2.work.0.1" && handedPool.isInside 2 "job.r3.work.0.1") = true := by decide +kernel
  rw [Bool.and_eq_true] at hin
  have hleaving : Run (SlotStep fun _ => 2) (fun p act => LeasesHold p act ∧ ReleasesAlone p act) {} leavingPool := by
    refine Pool.run_of_exec .refl ?_ leavingPool_eq
    intro act hact u hlease
    refine ⟨hlease, ?_⟩
    simp only [bothTaken, takesSlot, List.cons_append, List.nil_append, List.mem_cons, List.not_mem_nil, or_false] at hact
    rcases hact with rfl | rfl | rfl | rfl | rfl | rfl | rfl | rfl | rfl | rfl <;> trivial
  have hfreed : Run _ _ {} freedPool := hleaving.tail (a := SlotAction.release 0 3 true) ⟨trivial, leavingPool_alone⟩
    ⟨fun v hv => (by cases hv), (Option.some_get _).symm⟩
  have hexec : exec (Pool.trial fun _ => 2) freedPool (takesSlot 2 "job.r3.work.0.1" 3 4) = some handedPool :=
    (Option.some_get _).symm
  have hrun := Pool.run_of_exec hfreed (fun act hact u hlease => ⟨hlease, (by
    simp only [takesSlot, List.mem_cons, List.not_mem_nil, or_false] at hact
    rcases hact with rfl | rfl | rfl | rfl <;> trivial)⟩) hexec
  exact ⟨Pool.inside_of_isInside hin.1, Pool.inside_of_isInside hin.2,
    fun jobs hnodup hall => concurrency_limit_holds (fun _ => le_refl 2) hrun hnodup hall⟩

/-- One slot. A job is redelivered while it runs and gets the slot it holds; its first delivery ends and gives that slot back, and
another job takes it while the second delivery is still inside. -/
def sharedSlot : Option Pool := exec (Pool.trial fun _ => 1) {}
  (takesSlot 0 "job.r1.work.0.1" 1 1 ++ takesSlot 1 "job.r1.work.0.1" 2 2 ++ [.leave 0, .read 0 {}, .release 0 3 true] ++
    takesSlot 2 "job.r2.work.0.1" 3 4)

theorem redelivered_job_exceeds_limit : ∃ p, Run (SlotStep fun _ => 1) LeasesHold {} p ∧
    p.Inside "job.r1.work.0.1" ∧ p.Inside "job.r2.work.0.1" := by
  have hsome : sharedSlot.isSome = true := by decide +kernel
  obtain ⟨p, hp⟩ := Option.isSome_iff_exists.mp hsome
  have hin : sharedSlot.any (fun p => p.isInside 1 "job.r1.work.0.1" && p.isInside 2 "job.r2.work.0.1") = true := by decide +kernel
  rw [hp, Option.any_some, Bool.and_eq_true] at hin
  have hrun : Run (SlotStep fun _ => 1) LeasesHold {} p := Pool.run_of_exec .refl (fun _ _ _ h => h) hp
  exact ⟨p, hrun, Pool.inside_of_isInside hin.1, Pool.inside_of_isInside hin.2⟩

end Packtrail
