import Packtrail.WellFormed
import Packtrail.Over

/-
# One thing at a time

Between two decisions an unfinished execution has exactly one thing in progress: a task, an await, a
child, a fan-out with its pending branches or a map with its items. `Open.OneTask` … `Open.MapOpen` say so of
what is open, `Progress` is their disjunction. `Dispatched` says that a task in flight belongs to this
execution's own log and that whatever it waits for has a timer.

`FanOpen` takes the branches not started yet (`todo`) and `MapOpen` the number of items that settled
without an output (`lost`): both are empty between decisions and not in the middle of one.
-/

namespace Packtrail

def single {V : Type} (k : String) (v : V) : SMap V := (∅ : SMap V).insert k v

section
variable {V : Type} {k a : String} {v w : V}

@[simp] theorem get_single_self : (single k v)[k]? = some v := by simp [single]

theorem get_of_single (h : (single k v)[a]? = some w) : a = k ∧ w = v := by
  rcases get_of_insert h with ⟨h1, h2⟩ | ⟨-, h⟩
  · exact ⟨h1.symm, h2.symm⟩
  · rw [get_empty] at h; cases h

@[simp] theorem single_insert : (single k v).insert k w = single k w := by
  apply Std.ExtTreeMap.ext_getElem?
  intro a
  simp only [single, get_insert]
  split <;> rfl

@[simp] theorem single_erase : (single k v).erase k = (∅ : SMap V) := by
  apply Std.ExtTreeMap.ext_getElem?
  intro a
  simp only [single, get_insert, get_erase, get_empty]
  split <;> rfl

theorem eq_empty_of_get {m : SMap V} (h : ∀ k : String, m[k]? = none) : m = ∅ := by
  apply Std.ExtTreeMap.ext_getElem?
  intro a
  rw [h a, get_empty]

theorem keys_single : (single k v).keys = [k] := by
  have hn : (single k v).keys.Nodup := Std.ExtTreeMap.nodup_keys
  have hm : ∀ a, a ∈ (single k v).keys ↔ k = a := fun a => by simp [single]
  match h : (single k v).keys with
  | [] => rw [h] at hm; exact absurd ((hm k).2 rfl) (by simp)
  | [a] => rw [h] at hm; rw [(hm a).1 (by simp)]
  | a :: b :: l =>
    rw [h] at hm hn
    have hab : a = b := ((hm a).1 (by simp)).symm.trans ((hm b).1 (by simp))
    exact absurd hab (by simp only [List.nodup_cons, List.mem_cons, not_or] at hn; exact hn.1.1)

end

namespace Open

variable (fl : Flow) (o : Open)

structure OneTask (k : String) (t : Task) : Prop where
  tasks : o.tasks = single k t
  rest : ({ o with tasks := ∅ } : Open).Idle
  owner : t.owner = ""
  node : t.node = k
  type : ∃ nd, fl.node k = some nd ∧ nd.type = .task

structure OneAwait (k : String) (a : AwaitState) : Prop where
  awaits : o.awaits = single k a
  rest : ({ o with awaits := ∅ } : Open).Idle
  type : ∃ nd, fl.node k = some nd ∧ nd.type = .await ∧ nd.signal = a.signal

structure OneChild (k : String) (ch : ChildState) : Prop where
  children : o.children = single k ch
  rest : ({ o with children := ∅ } : Open).Idle
  owner : ch.owner = ""
  node : ch.node = k
  type : ∃ nd, fl.node k = some nd ∧ nd.type = .subflow

structure FanOpen (fan : String) (f : Fan) (todo : List String) : Prop where
  fans : o.fans = single fan f
  rest : ({ o with tasks := ∅, fans := ∅, children := ∅ } : Open).Idle
  type : ∃ fn, fl.node fan = some fn ∧ fn.type = .fanout ∧ ∀ b, b ∈ f.branches ↔ b ∈ fn.branches
  join : fl.joinOf fan = some f.join
  task : ∀ {k : String} {t}, o.tasks[k]? = some t → t.owner = fan ∧ t.node = k ∧ f.branches[k]? = some .pending ∧
    k ∉ todo ∧ ∃ nd, fl.node k = some nd ∧ nd.type = .task
  child : ∀ {k : String} {ch}, o.children[k]? = some ch → ch.owner = fan ∧ ch.node = k ∧
    f.branches[k]? = some .pending ∧ k ∉ todo ∧ ∃ nd, fl.node k = some nd ∧ nd.type = .subflow
  pending : ∀ {b : String}, f.branches[b]? = some .pending → b ∉ todo → b ∈ o.tasks ∨ b ∈ o.children

structure MapOpen (m : String) (r : MapWork) (lost : Nat) : Prop where
  maps : o.maps = single m r
  rest : ({ o with tasks := ∅, maps := ∅, children := ∅ } : Open).Idle
  size : r.size = r.items.length
  next_le : r.next ≤ r.items.length
  type : ∃ nd, fl.node m = some nd ∧ nd.type = .map
  task : ∀ {k : String} {t}, o.tasks[k]? = some t → t.owner = m ∧ t.node = m ∧ t.index < r.next ∧
    k = itemKey m t.index ∧ ∃ nd, fl.node m = some nd ∧ nd.flow = ""
  child : ∀ {k : String} {ch}, o.children[k]? = some ch → ch.owner = m ∧ ch.node = m ∧ ch.index < r.next ∧
    k = itemKey m ch.index ∧ ∃ nd, fl.node m = some nd ∧ nd.flow ≠ ""
  count : r.done + o.tasks.size + o.children.size + lost = r.next

end Open

inductive Progress (fl : Flow) (w : Work) : Prop
  | task {k : String} {t : Task} (h : w.OneTask fl k t)
  | await {k : String} {a : AwaitState} (h : w.OneAwait fl k a) (quiet : ∀ b ∈ w.buffered, b.name ≠ a.signal)
  | child {k : String} {ch : ChildState} (h : w.OneChild fl k ch)
  | fan {fan : String} {f : Fan} (h : w.FanOpen fl fan f [])
      (waits : ∃ b ∈ fl.waitFor f.join, f.branches[b]? = some .pending)
  | map {m : String} {r : MapWork} (h : w.MapOpen fl m r 0) (busy : r.done < r.next)

/-! ## Wake-ups -/

/-- A pending timer for exactly this attempt. -/
def Timed (timers : SMap Timer) (purpose : TimerPurpose) (key : String) (gen attempt : Nat) : Prop :=
  ∃ (id : String) (tm : Timer), timers[id]? = some tm ∧ tm.purpose = purpose ∧ tm.key = key ∧ tm.generation = gen ∧
    tm.attempt = attempt

/-- A task in flight was scheduled in this log and has the timer its status asks for. -/
structure Dispatched (fl : Flow) (base : Nat) (timers : SMap Timer) (t : Task) : Prop where
  own : t.status ≠ .interrupted → base < t.generation
  timeout : t.status = .scheduled → ∀ nd, fl.node t.node = some nd → 0 < nd.timeout →
    Timed timers .timeout t.key t.generation t.attempt
  retry : t.status = .retrying → Timed timers .retry t.key t.generation (t.attempt + 1)

namespace Work

/-- Every task but those at the keys `skip` is dispatched. -/
def TasksDispatched (fl : Flow) (base : Nat) (skip : String → Prop) (w : Work) : Prop :=
  ∀ (k : String) (t : Task), w.tasks[k]? = some t → ¬skip k → Dispatched fl base w.timers t

def AwaitsTimed (w : Work) : Prop :=
  ∀ (k : String) (a : AwaitState), w.awaits[k]? = some a →
    ∃ tm, w.timers[a.timerID]? = some tm ∧ tm.purpose = .await ∧ tm.node = k

/-- The work of an unfinished execution between two decisions. -/
structure Rested (fl : Flow) (base : Nat) (w : Work) : Prop where
  progress : Progress fl w
  tasks : w.TasksDispatched fl base fun _ => False
  awaits : w.AwaitsTimed

end Work

/-- An unfinished execution, at any event. -/
structure Unfinished (fl : Flow) (base : Nat) (s : State) : Prop where
  live : s.Live
  sound : s.work.Sound fl
  base_le : base ≤ s.n

/-- What every decision leaves behind. -/
def Settled (fl : Flow) (base : Nat) (s : State) : Prop :=
  s.Ended ∨ Unfinished fl base s ∧ s.work.Rested fl base

/-! ## Timers are only added -/

/-- Every timer of `w` is pending in `w'`. -/
def Timers.Kept (w w' : SMap Timer) : Prop :=
  ∀ (id : String) (tm : Timer), w[id]? = some tm → w'[id]? = some tm

theorem Timed.kept {w w' : SMap Timer} {p : TimerPurpose} {k : String} {g a : Nat} (h : Timed w p k g a)
    (hk : Timers.Kept w w') : Timed w' p k g a := by
  obtain ⟨id, tm, hid, hrest⟩ := h
  exact ⟨id, tm, hk id tm hid, hrest⟩

theorem Dispatched.kept {fl : Flow} {base : Nat} {w w' : SMap Timer} {t : Task} (h : Dispatched fl base w t)
    (hk : Timers.Kept w w') : Dispatched fl base w' t :=
  ⟨h.own, fun hs nd hn ht => (h.timeout hs nd hn ht).kept hk, fun hs => (h.retry hs).kept hk⟩

/-- A new timer has a new id, so it replaces none. -/
theorem Work.Sound.timers_kept {fl : Flow} {w : Work} (h : w.Sound fl) {n : Nat} (hn : w.n < n) (tm : Timer) :
    Timers.Kept w.timers (w.timers.insert (timerID n) tm) := by
  intro id tm' hid
  obtain ⟨-, hname, hle⟩ := h.timer hid
  rw [get_insert, if_neg]
  · exact hid
  · intro he
    have := timerID_inj (he.trans hname)
    omega

end Packtrail
