import Packtrail.Lineage
import Packtrail.Ledger

/-
# Channels and their reducers

A channel starts with its default, and every write, of a completed task, an update or a fork's edit, is folded
in with the channel's reducer (`Reduce`, `internal/fold/reduce.go:28-119`). `Documented` says what a channel
holds after a whole sequence of writes; **`channels_documented`** compares it with what the fold computes.

They differ on `null` (`appendItems`, `numberOf`): `json.Unmarshal` takes it for an empty list and for the
number 0, so a list does not get it as an element and a sum accepts it.
-/

namespace Packtrail

open Replay

/-! ## What the reducers document -/

/-- What a write adds to a list: the elements of an array, any other value as one element. -/
def elements : Json → List Json
  | .arr ys => ys
  | v => [v]

def listOf : Raw → List Json
  | some (.arr xs) => xs
  | _ => []

/-- Field `k` of an object. -/
def Json.field (k : String) : Json → Option Json
  | .obj ms => (mapOf ms)[k]?
  | _ => none

/-- The value of the last write that set `k`, or the initial one. -/
def lastSet (initial : Raw) (ws : List Json) (k : String) : Option Json :=
  (ws.reverse.findSome? (Json.field k)).or (initial.bind (Json.field k))

def numOf : Raw → Rat
  | some (.num q) => q
  | _ => 0

/-- A channel with reducer `r` holds `final` after the writes `ws`. -/
def Documented (r : Reducer) (initial : Raw) (ws : List Json) (final : Raw) : Prop :=
  ws = [] ∧ final = initial ∨ ws ≠ [] ∧
    match r with
    | .unset | .replace => final = ws.getLast?
    | .append => final = some (.arr (listOf initial ++ ws.flatMap elements))
    | .merge => ∃ m : SMap Json, final = some (objectOf m) ∧ ∀ k : String, m[k]? = lastSet initial ws k
    | .sum => ∃ qs : List Rat, ws = qs.map .num ∧ final = some (.num (numOf initial + qs.sum))
    | .unknown _ => False

/-- No list or sum is written `null`. -/
def NullFree (r : Reducer) (ws : List Json) : Prop := r = .append ∨ r = .sum → Json.null ∉ ws

/-! ## What the reducers compute -/

/-- The writes one after another. -/
def reduceWrites (quote : String → String) (r : Reducer) : Raw → List Json → Except String Raw
  | cur, [] => .ok cur
  | cur, w :: ws =>
    match reduce quote r cur w with
    | .ok v => reduceWrites quote r (some v) ws
    | .error e => .error e

section
variable {quote : String → String} {r : Reducer} {initial final : Raw} {ws : List Json}

theorem reduceWrites_append {cur mid fin : Raw} {us : List Json} (h : reduceWrites quote r cur ws = .ok mid)
    (h' : reduceWrites quote r mid us = .ok fin) : reduceWrites quote r cur (ws ++ us) = .ok fin := by
  induction ws generalizing cur with
  | nil => cases h; exact h'
  | cons w ws ih =>
    simp only [reduceWrites, List.cons_append] at h ⊢
    split at h
    · exact ih h
    · cases h

theorem reduceWrites_replace (hr : r = .unset ∨ r = .replace) (h : reduceWrites quote r initial ws = .ok final) (hne : ws ≠ []) :
    final = ws.getLast? := by
  induction ws generalizing initial with
  | nil => exact absurd rfl hne
  | cons w ws ih =>
    have hstep : reduce quote r initial w = .ok w := by
      rcases hr with rfl | rfl <;> rfl
    simp only [reduceWrites, hstep] at h
    cases ws with
    | nil => cases h; rfl
    | cons w' ws => rw [ih h (by simp), List.getLast?_cons_cons]

theorem reduceAppend_ok {cur : Raw} {w v : Json} (h : reduceAppend cur w = .ok v) : v = .arr (listOf cur ++ appendItems w) := by
  unfold reduceAppend at h
  split at h <;> cases h <;> rfl

theorem reduceWrites_list (h : reduceWrites quote .append initial ws = .ok final) :
    listOf final = listOf initial ++ ws.flatMap appendItems ∧ (ws ≠ [] → final = some (.arr (listOf final))) := by
  induction ws generalizing initial with
  | nil => cases h; simp
  | cons w ws ih =>
    simp only [reduceWrites] at h
    split at h
    · rename_i v hv
      obtain rfl := reduceAppend_ok hv
      obtain ⟨hlist, hsome⟩ := ih h
      refine ⟨by rw [hlist]; simp [listOf], fun _ => ?_⟩
      cases ws with
      | nil => cases h; rfl
      | cons w' ws => exact hsome (by simp)
    · cases h

/-- `null` is the one value that is no element of the list it is written to. -/
theorem flatMap_elements_iff : ws.flatMap appendItems = ws.flatMap elements ↔ Json.null ∉ ws := by
  have hlen : ∀ ws : List Json, (ws.flatMap appendItems).length ≤ (ws.flatMap elements).length := by
    intro ws
    induction ws with
    | nil => exact le_rfl
    | cons w ws ih =>
      rw [List.flatMap_cons, List.flatMap_cons, List.length_append, List.length_append]
      refine Nat.add_le_add ?_ ih
      cases w <;> simp [appendItems, elements]
  induction ws with
  | nil => simp
  | cons w ws ih =>
    cases w with
    | null =>
      have hne : (Json.null :: ws).flatMap appendItems ≠ (Json.null :: ws).flatMap elements := by
        intro h
        have h := congrArg List.length h
        simp only [List.flatMap_cons, appendItems, elements, List.nil_append, List.length_append, List.length_singleton] at h
        have := hlen ws
        omega
      exact iff_of_false hne fun h => h List.mem_cons_self
    | _ => simp [appendItems, elements, ih]

/-- The entries of a map around one of them have other keys. -/
theorem toList_split {V : Type} {m : SMap V} {k : String} {v : V} (h : m[k]? = some v) :
    ∃ l r, m.toList = l ++ (k, v) :: r ∧ (∀ kv ∈ l, kv.1 ≠ k) ∧ ∀ kv ∈ r, kv.1 ≠ k := by
  obtain ⟨l, r, hlr⟩ := List.append_of_mem (Std.ExtTreeMap.mem_toList_iff_getElem?_eq_some.2 h)
  have hnodup : (m.toList.map Prod.fst).Nodup := by
    rw [Std.ExtTreeMap.map_fst_toList_eq_keys]
    exact Std.ExtTreeMap.nodup_keys
  rw [hlr, List.map_append, List.map_cons, List.nodup_append, List.nodup_cons] at hnodup
  exact ⟨l, r, hlr, fun kv hm => hnodup.2.2 _ (List.mem_map_of_mem hm) _ List.mem_cons_self,
    fun kv hm he => hnodup.2.1.1 (List.mem_map.2 ⟨kv, hm, he⟩)⟩

theorem mapOf_insertAll (m : SMap Json) (ms : List (String × Json)) (k : String) :
    (ms.foldl (fun m kv => m.insert kv.1 kv.2) m)[k]? = (mapOf ms)[k]?.or m[k]? := by
  unfold mapOf
  induction ms using List.reverseRecOn with
  | nil => simp
  | append_singleton ms kv ih =>
    rw [List.foldl_append, List.foldl_append]
    simp only [List.foldl_cons, List.foldl_nil, get_insert]
    split
    · rfl
    · exact ih

theorem mapOf_other {ms : List (String × Json)} {k : String} (h : ∀ kv ∈ ms, kv.1 ≠ k) : (mapOf ms)[k]? = none := by
  unfold mapOf
  induction ms using List.reverseRecOn with
  | nil => exact get_empty
  | append_singleton ms kv ih =>
    rw [List.foldl_append]
    simp only [List.foldl_cons, List.foldl_nil, get_insert]
    rw [if_neg (h kv (by simp))]
    exact ih fun kv' hm => h kv' (List.mem_append_left _ hm)

theorem mapOf_toList (m : SMap Json) : mapOf m.toList = m := by
  apply Std.ExtTreeMap.ext_getElem?
  intro k
  cases hk : m[k]? with
  | none =>
    refine mapOf_other fun kv hm he => ?_
    have hget := Std.ExtTreeMap.mem_toList_iff_getElem?_eq_some.1 hm
    rw [he, hk] at hget
    cases hget
  | some v =>
    obtain ⟨l, r, hlr, -, hr⟩ := toList_split hk
    have hsplit : mapOf m.toList = r.foldl (fun m kv => m.insert kv.1 kv.2) ((mapOf l).insert k v) := by
      rw [hlr, mapOf, List.foldl_append, List.foldl_cons]
      rfl
    rw [hsplit, mapOf_insertAll, mapOf_other hr, get_insert, if_pos rfl]
    rfl

theorem reduceMerge_ok {cur : Raw} {w v : Json} (h : reduceMerge cur w = .ok v) :
    ∃ m : SMap Json, v = objectOf m ∧ ∀ k : String, m[k]? = (w.field k).or (cur.bind (Json.field k)) := by
  have into : ∀ {obj : SMap Json}, mergeInto obj w = .ok v → ∃ m : SMap Json, v = objectOf m ∧ ∀ k : String, m[k]? = (w.field k).or obj[k]? := by
    intro obj h
    cases w with
    | obj ms =>
      cases h
      exact ⟨_, rfl, mapOf_insertAll obj ms⟩
    | _ => cases h
  unfold reduceMerge at h
  split at h
  · obtain ⟨m, hm, hget⟩ := into h
    exact ⟨m, hm, fun k => (hget k).trans (by rw [get_empty]; rfl)⟩
  · obtain ⟨m, hm, hget⟩ := into h
    exact ⟨m, hm, fun k => (hget k).trans (by rw [get_empty]; rfl)⟩
  · exact into h
  · cases h

theorem lastSet_cons (w : Json) (ws : List Json) (m : SMap Json) (hm : ∀ k : String, m[k]? = (w.field k).or (initial.bind (Json.field k)))
    (k : String) : lastSet (some (objectOf m)) ws k = lastSet initial (w :: ws) k := by
  have hfield : (objectOf m).field k = m[k]? := by
    show (mapOf m.toList)[k]? = _
    rw [mapOf_toList]
  unfold lastSet
  rw [List.reverse_cons, List.findSome?_append, Option.or_assoc]
  congr 1
  show (objectOf m).field k = _
  rw [hfield, hm k]
  simp

theorem reduceWrites_object (h : reduceWrites quote .merge initial ws = .ok final) (hne : ws ≠ []) :
    ∃ m : SMap Json, final = some (objectOf m) ∧ ∀ k : String, m[k]? = lastSet initial ws k := by
  induction ws generalizing initial with
  | nil => exact absurd rfl hne
  | cons w ws ih =>
    simp only [reduceWrites] at h
    split at h
    · rename_i v hv
      obtain ⟨m, rfl, hm⟩ := reduceMerge_ok hv
      cases ws with
      | nil =>
        cases h
        refine ⟨m, rfl, fun k => (hm k).trans ?_⟩
        simp [lastSet]
      | cons w' ws =>
        obtain ⟨m', hfin, hm'⟩ := ih h (by simp)
        exact ⟨m', hfin, fun k => (hm' k).trans (lastSet_cons w (w' :: ws) m hm k)⟩
    · cases h

/-- What a sum adds: `null` counts for nothing. -/
def addend : Json → Rat
  | .num q => q
  | _ => 0

theorem reduceSum_ok {cur : Raw} {w v : Json} (h : reduceSum cur w = .ok v) :
    v = .num (numOf cur + addend w) ∧ (w = .null ∨ ∃ q, w = .num q) := by
  unfold reduceSum at h
  split at h
  · cases h
  · rename_i a ha
    split at h
    · cases h
    · rename_i b hb
      cases h
      have hcur : a = numOf cur := by
        cases cur with
        | none => cases ha; rfl
        | some c => cases c <;> cases ha <;> rfl
      subst hcur
      cases w with
      | null => cases hb; exact ⟨rfl, .inl rfl⟩
      | num q => cases hb; exact ⟨rfl, .inr ⟨_, rfl⟩⟩
      | _ => cases hb

theorem reduceWrites_sum (h : reduceWrites quote .sum initial ws = .ok final) :
    numOf final = numOf initial + (ws.map addend).sum ∧ (∀ w ∈ ws, w = .null ∨ ∃ q, w = .num q) ∧
      (ws ≠ [] → final = some (.num (numOf final))) := by
  induction ws generalizing initial with
  | nil => cases h; simp
  | cons w ws ih =>
    simp only [reduceWrites] at h
    split at h
    · rename_i v hv
      obtain ⟨rfl, hw⟩ := reduceSum_ok hv
      obtain ⟨hsum, hall, hsome⟩ := ih h
      refine ⟨?_, List.forall_mem_cons.2 ⟨hw, hall⟩, fun _ => ?_⟩
      · rw [hsum, List.map_cons, List.sum_cons, ← add_assoc]
        rfl
      · cases ws with
        | nil => cases h; rfl
        | cons w' ws => exact hsome (by simp)
    · cases h

theorem map_num_addend (hall : ∀ w ∈ ws, w = .null ∨ ∃ q, w = .num q) (hnull : Json.null ∉ ws) : ws = (ws.map addend).map .num := by
  induction ws with
  | nil => rfl
  | cons w ws ih =>
    rw [List.mem_cons, not_or] at hnull
    obtain ⟨hw, hrest⟩ := List.forall_mem_cons.1 hall
    obtain ⟨q, rfl⟩ := hw.resolve_left fun h => hnull.1 h.symm
    rw [List.map_cons, List.map_cons, ← ih hrest hnull.2]
    rfl

/-- **The reducers document what they do, but for `null`.** -/
theorem documented_iff (h : reduceWrites quote r initial ws = .ok final) : Documented r initial ws final ↔ NullFree r ws := by
  by_cases hne : ws = []
  · subst hne
    cases h
    exact iff_of_true (.inl ⟨rfl, rfl⟩) fun _ => List.not_mem_nil
  · have hdoc : Documented r initial ws final ↔ _ := ⟨fun h => (h.resolve_left fun h => hne h.1).2, fun h => .inr ⟨hne, h⟩⟩
    rw [hdoc]
    cases r with
    | unset => exact iff_of_true (reduceWrites_replace (.inl rfl) h hne) fun h => by simp at h
    | replace => exact iff_of_true (reduceWrites_replace (.inr rfl) h hne) fun h => by simp at h
    | merge => exact iff_of_true (reduceWrites_object h hne) fun h => by simp at h
    | unknown s =>
      cases ws with
      | nil => exact absurd rfl hne
      | cons w ws => cases h
    | append =>
      obtain ⟨hlist, hsome⟩ := reduceWrites_list h
      simp only [NullFree, true_or, forall_const]
      rw [hsome hne, hlist, ← flatMap_elements_iff]
      simp
    | sum =>
      obtain ⟨hsum, hall, hsome⟩ := reduceWrites_sum h
      simp only [NullFree, or_true, forall_const]
      constructor
      · rintro ⟨qs, rfl, -⟩ hnull
        obtain ⟨q, -, hq⟩ := List.mem_map.1 hnull
        cases hq
      · intro hnull
        refine ⟨ws.map addend, map_num_addend hall hnull, ?_⟩
        rw [← hsum]
        exact hsome hne

end

/-! ## The channels of an execution -/

/-- What channel `name` holds when an execution starts. -/
def Flow.initial (fl : Flow) (name : String) : Raw :=
  match fl.channels[name]? with
  | some c => if isNull (some c.default) then none else some c.default
  | none => none

/-- What an event writes. -/
def Payload.writes : Payload → SMap Json
  | .nodeDone d => d.writes
  | .update d => d.writes
  | _ => ∅

/-- The accepted writes to channel `name`, oldest first. -/
def writesTo (name : String) (l : List (Request × Event)) : List Json := l.filterMap fun m => m.2.data.writes[name]?

section
variable {quote : String → String} {fl : Flow} {channels channels' : SMap Json} {name : String}

theorem reduceAll_other {ws : List (String × Json)} (h : State.reduceAll quote fl channels ws = .ok channels')
    (hname : ∀ kv ∈ ws, kv.1 ≠ name) : channels'[name]? = channels[name]? := by
  induction ws generalizing channels with
  | nil => cases h; rfl
  | cons kv ws ih =>
    obtain ⟨hkv, hws⟩ := List.forall_mem_cons.1 hname
    simp only [State.reduceAll] at h
    split at h
    · rw [ih h hws, get_insert, if_neg hkv]
    · cases h

theorem reduceAll_append {ws us : List (String × Json)} (h : State.reduceAll quote fl channels (ws ++ us) = .ok channels') :
    ∃ mid, State.reduceAll quote fl channels ws = .ok mid ∧ State.reduceAll quote fl mid us = .ok channels' := by
  induction ws generalizing channels with
  | nil => exact ⟨channels, rfl, h⟩
  | cons kv ws ih =>
    simp only [State.reduceAll, List.cons_append] at h ⊢
    split at h
    · exact ih h
    · cases h

/-- The writes of one event reach a channel at most once. -/
theorem reduceAll_writes {writes : SMap Json} (h : State.reduceAll quote fl channels writes.toList = .ok channels') (name : String) :
    reduceWrites quote (fl.reducerOf name) channels[name]? writes[name]?.toList = .ok channels'[name]? := by
  cases hw : writes[name]? with
  | none =>
    rw [reduceAll_other h fun kv hm he => ?_]
    · rfl
    · have hget := Std.ExtTreeMap.mem_toList_iff_getElem?_eq_some.1 hm
      rw [he, hw] at hget
      cases hget
  | some w =>
    obtain ⟨l, r, hlr, hl, hr⟩ := toList_split hw
    rw [hlr] at h
    obtain ⟨mid, hmid, hrest⟩ := reduceAll_append h
    have hbefore := reduceAll_other hmid hl
    simp only [State.reduceAll] at hrest
    split at hrest
    · rename_i v hv
      rw [hbefore] at hv
      rw [reduceAll_other hrest hr, get_insert, if_pos rfl]
      simp only [Option.toList_some, reduceWrites, hv]
    · cases hrest

theorem defaults_get (fl : Flow) (name : String) : (fl.defaults ∅)[name]? = fl.initial name := by
  have other : ∀ {l : List (String × Channel)} {m : SMap Json}, (∀ kc ∈ l, kc.1 ≠ name) →
      (l.foldl (fun m kc => if isNull (some kc.2.default) then m else m.insert kc.1 kc.2.default) m)[name]? = m[name]? := by
    intro l
    induction l with
    | nil => exact fun _ => rfl
    | cons kc l ih =>
      intro m hl
      obtain ⟨hkc, hl⟩ := List.forall_mem_cons.1 hl
      rw [List.foldl_cons, ih hl]
      split
      · rfl
      · rw [get_insert, if_neg hkc]
  unfold Flow.defaults Flow.initial
  rw [Std.ExtTreeMap.foldl_eq_foldl_toList]
  cases hc : fl.channels[name]? with
  | none =>
    rw [other fun kc hm he => ?_, get_empty]
    have hget := Std.ExtTreeMap.mem_toList_iff_getElem?_eq_some.1 hm
    rw [he, hc] at hget
    cases hget
  | some c =>
    obtain ⟨l, r, hlr, hl, hr⟩ := toList_split hc
    rw [hlr, List.foldl_append, List.foldl_cons, other hr]
    simp only
    split
    · rw [other hl, get_empty]
    · rw [get_insert, if_pos rfl]

end

/-- What the channels are after a history: nothing before the start, then the defaults with every write folded in. -/
structure Folded (quote : String → String) (fl : Flow) (l : List (Request × Event)) (s : State) : Prop where
  absent : s.events = 0 → l = [] ∧ s.channels = ∅
  channel : 0 < s.events → ∀ name, reduceWrites quote (fl.reducerOf name) (fl.initial name) (writesTo name l) = .ok s.channels[name]?

section
variable {x : Ext} {fl : Flow}

theorem writesTo_snoc (name : String) (l : List (Request × Event)) (req : Request) (ev : Event) :
    writesTo name (l ++ [(req, ev)]) = writesTo name l ++ ev.data.writes[name]?.toList := by
  simp only [writesTo, List.filterMap_append]
  cases hw : ev.data.writes[name]? <;> simp [hw]

/-- One event of an execution that has begun. -/
theorem apply_writes {s s' : State} {ev : Event} {base : Nat} (hp : Promise fl base s ev) (hb : ev.data.begins = false)
    (happ : s.apply x.quote fl ev = .ok s') (name : String) :
    reduceWrites x.quote (fl.reducerOf name) s.channels[name]? ev.data.writes[name]?.toList = .ok s'.channels[name]? := by
  by_cases hk : ev.data.keepsChannels = true
  · have hnone : ev.data.writes = ∅ := by
      cases hd : ev.data <;> rw [hd] at hk <;> first | rfl | cases hk
    rw [apply_channels hk happ, hnone, get_empty]
    rfl
  · have hl := State.apply_ledger happ
    have hoffer := hp.offer
    cases hd : ev.data with
    | nodeDone d => rw [hd] at hl; exact reduceAll_writes hl.1 name
    | update d => rw [hd] at hl; exact reduceAll_writes hl.1 name
    | continued d =>
      rw [hd] at hl hoffer
      obtain ⟨seg, q, hst⟩ := hoffer
      have hsame : s'.channels = s.channels := by
        show s'.ledger.channels = _
        rw [hl, hst]
        rfl
      rw [hsame]
      show reduceWrites _ _ _ (∅ : SMap Json)[name]?.toList = _
      rw [get_empty]
      rfl
    | started d => rw [hd] at hb; cases hb
    | forked d => rw [hd] at hb; cases hb
    | _ => rw [hd] at hk; exact absurd rfl hk

theorem folded_lasts : Lasting x fl (Folded x.quote fl) where
  new execID := ⟨fun _ => ⟨rfl, rfl⟩, fun h => absurd h (lt_irrefl 0)⟩
  alike {l s s'} h ha := by
    have hch : s'.channels = s.channels := congrArg Ledger.channels ha.ledger.symm
    exact ⟨fun h0 => by rw [hch]; exact h.absent (ha.events.trans h0), fun h0 => by rw [hch]; exact h.channel (ha.events ▸ h0)⟩
  step {l s s' req ev base} h hp hapt hf happ := by
    have hev : 0 < s'.events := by
      obtain ⟨-, t, -, rfl⟩ := State.apply_ok.1 happ
      exact Nat.succ_pos _
    refine ⟨fun h0 => absurd h0 hev.ne', fun _ name => ?_⟩
    rw [writesTo_snoc]
    by_cases h0 : s.events = 0
    · -- the first event starts the execution: the channels are the defaults
      obtain ⟨rfl, hempty⟩ := h.absent h0
      have hb := hp.begins.2 h0
      cases hd : ev.data with
      | started d =>
        have hl := State.apply_ledger happ
        rw [hd] at hl
        have hch : s'.channels = fl.defaults ∅ := by
          show s'.ledger.channels = _
          rw [hl, hempty]
        rw [hch, defaults_get]
        show reduceWrites _ _ _ ([] ++ (∅ : SMap Json)[name]?.toList) = _
        rw [get_empty]
        rfl
      | forked d => rw [hd] at hf; cases hf
      | _ => rw [hd] at hb; cases hb
    · have hpos : 0 < s.events := Nat.pos_of_ne_zero h0
      exact reduceWrites_append (h.channel hpos name) (apply_writes hp (hp.not_begins hpos) happ name)
  fork {l src req ev d s s'} h hex _ _ hd hstate happ := by
    have hev : 0 < s'.events := by
      obtain ⟨-, t, -, rfl⟩ := State.apply_ok.1 happ
      exact Nat.succ_pos _
    refine ⟨fun h0 => absurd h0 hev.ne', fun _ name => ?_⟩
    have hl := State.apply_ledger happ
    rw [hd] at hl
    have hch : s'.channels = src.channels := by
      show s'.ledger.channels = _
      rw [hl, hstate]
      rfl
    have hnone : ev.data.writes[name]?.toList = [] := by
      rw [hd]
      show (∅ : SMap Json)[name]?.toList = _
      rw [get_empty]
      rfl
    rw [writesTo_snoc, hnone, List.append_nil, hch]
    exact h.channel (by simpa [State.exists] using hex) name

/-- **A channel holds what its reducer documents of the writes to it exactly when no list or sum was written `null`.** -/
theorem channels_documented (hv : validate x fl = []) {s : State} {line : List Entry} (h : Lineage x fl s line)
    (hex : s.exists = true) (name : String) :
    Documented (fl.reducerOf name) (fl.initial name) (writesTo name (moves line)) s.channels[name]? ↔
      NullFree (fl.reducerOf name) (writesTo name (moves line)) := by
  have hfold := folded_lasts.lineage (checked_of_validate hv) h
  exact documented_iff (hfold.channel (by simpa [State.exists] using hex) name)

end

/-! A review that collects tags and adds up a total. -/

def taggedTask : Flow :=
  { oneTask with channels := (single "tags" { reducer := .append }).insert "total" { reducer := .sum } }

def tag (id : String) (tags total : Json) : Command := ⟨id, .update ((single "tags" tags).insert "total" total)⟩

def taggedRun : State × List Entry :=
  (attend plainExt taggedTask (State.new "r1") []
    [(startReview, 1), (tag "tag-1" (.str "urgent") (.num 2), 2), (tag "tag-2" (.arr [.str "long", .str "late"]) (.num 3), 3)]).get
    (by decide +kernel)

def nulledRun : State × List Entry :=
  (attend plainExt taggedTask (State.new "r1") [] [(startReview, 1), (tag "tag-1" .null .null, 2)]).get (by decide +kernel)

/-- What the two runs evaluate to. -/
theorem taggedTask_evaluates :
    validate plainExt taggedTask = [] ∧ taggedRun.1.exists = true ∧ nulledRun.1.exists = true ∧
    taggedTask.reducerOf "tags" = .append ∧ taggedTask.reducerOf "total" = .sum ∧
    (writesTo "tags" (moves taggedRun.2)).any (fun w => isNull (some w)) = false ∧
    (writesTo "tags" (moves nulledRun.2)).any (fun w => isNull (some w)) = true ∧
    (writesTo "total" (moves nulledRun.2)).any (fun w => isNull (some w)) = true := by decide +kernel

theorem isNull_some {w : Json} : isNull (some w) = true ↔ w = .null := by
  cases w <;> simp [isNull]

theorem taggedRun_documented : Documented (taggedTask.reducerOf "tags") (taggedTask.initial "tags")
    (writesTo "tags" (moves taggedRun.2)) taggedRun.1.channels["tags"]? := by
  obtain ⟨hv, hex, -, -, -, hnull, -⟩ := taggedTask_evaluates
  have hl : Lineage plainExt taggedTask taggedRun.1 taggedRun.2 := (Lineage.new "r1").attend (Option.some_get _).symm
  refine (channels_documented hv hl hex "tags").2 fun _ hmem => ?_
  rw [List.any_eq_false] at hnull
  exact hnull _ hmem rfl

/-- A list does not get the `null` that is written to it, and a sum accepts it. -/
theorem null_is_dropped :
    validate plainExt taggedTask = [] ∧ Lineage plainExt taggedTask nulledRun.1 nulledRun.2 ∧ nulledRun.1.exists = true ∧
    ¬ Documented (taggedTask.reducerOf "tags") (taggedTask.initial "tags") (writesTo "tags" (moves nulledRun.2))
      nulledRun.1.channels["tags"]? ∧
    ¬ Documented (taggedTask.reducerOf "total") (taggedTask.initial "total") (writesTo "total" (moves nulledRun.2))
      nulledRun.1.channels["total"]? := by
  obtain ⟨hv, -, hex, htags, htotal, -, hnulls, hnulls'⟩ := taggedTask_evaluates
  have hl : Lineage plainExt taggedTask nulledRun.1 nulledRun.2 := (Lineage.new "r1").attend (Option.some_get _).symm
  have hfold := (folded_lasts.lineage (checked_of_validate hv) hl).channel (by simpa [State.exists] using hex)
  refine ⟨hv, hl, hex, fun hdoc => ?_, fun hdoc => ?_⟩
  · obtain ⟨w, hmem, hw⟩ := List.any_eq_true.1 hnulls
    rw [isNull_some.1 hw] at hmem
    exact (documented_iff (hfold "tags")).1 hdoc (.inl htags) hmem
  · obtain ⟨w, hmem, hw⟩ := List.any_eq_true.1 hnulls'
    rw [isNull_some.1 hw] at hmem
    exact (documented_iff (hfold "total")).1 hdoc (.inr htotal) hmem

end Packtrail
