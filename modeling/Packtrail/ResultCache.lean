import Packtrail.Decisions

/-
# The key of a cached result

A node with a `cache` answers a job from the result of an earlier one with the same key (`internal/dispatch/dispatch.go:374-381`).

| here | there |
| --- | --- |
| `Context`, `State.contextView` | `Context`, `ContextView` (`internal/fold/view.go:23-66`) |
| `Context.handed`               | the view a worker decodes from the job, which carries it as JSON |
| `cacheRecord`, `cacheKey`      | the struct `CacheKey` marshals, and `CacheKey` (`internal/dispatch/dispatch.go:505-525`) |

`sha` is the truncated SHA-256 of the text `encoding/json` writes, as a function of the value written.

**`same_key_same_view`**: jobs with one key are of one flow version and one node, and a worker is handed the same of both
exactly when they agree on what the key leaves out: the last node, branches, counters and errors, and whether there is
an item and a resume value at all (an absent message and `null` are written alike).
-/

namespace Packtrail

/-- `Input` is never empty in a view; the maps of a state are never nil. -/
structure Context where
  input : Json
  channels : SMap Json
  results : SMap Raw
  lastNode : String
  visits : SMap Nat
  signals : SMap Raw
  branches : SMap BranchStatus
  counters : SMap Rat
  errors : SMap NodeError
  item : Raw := none
  index : Option Nat := none
  resume : Raw := none
  resumedBy : String := ""
  interrupt : Raw := none

def State.contextView (s : State) (t : Option Task) : Context :=
  let c : Context :=
    { input := s.input.getD (.obj []), channels := s.channels, results := s.results, lastNode := s.lastNode
      visits := s.visits, signals := s.signals, branches := s.branches, counters := s.counters, errors := s.errors }
  match t with
  | none => c
  | some t =>
    let c := { c with resume := t.resume }
    let c := if t.resume.isSome then { c with resumedBy := t.resumedBy, interrupt := t.interrupt } else c
    if (s.maps[t.owner]?).isSome && t.node == t.owner then { c with item := t.item, index := some t.index } else c

/-- A nil message held in a map is written as `null`; one in a field marked `omitempty` stays absent. -/
def Context.handed (v : Context) : Context :=
  { v with
    results := v.results.map fun _ r => some r.encoded
    signals := v.signals.map fun _ r => some r.encoded }

def indexJson : Option Nat → Json
  | none => .null
  | some i => .num i

def cacheRecord (flowHash node : String) (v : Context) : Json :=
  .obj ([("F", .str flowHash), ("N", .str node), ("I", v.input), ("C", objectOf v.channels),
    ("R", objectOf (v.results.map fun _ r => r.encoded)), ("S", objectOf (v.signals.map fun _ r => r.encoded)),
    ("It", v.item.encoded), ("Re", v.resume.encoded), ("Idx", indexJson v.index)] ++
    -- marked omitempty
    (v.interrupt.toList.map fun i => ("In", i)) ++ if v.resumedBy = "" then [] else [("By", .str v.resumedBy)])

def cacheKey {Digest : Type} (sha : Json → Digest) (flowHash node : String) (v : Context) : Digest :=
  sha (cacheRecord flowHash node v)

/-! ## What the key holds -/

section
variable {f f' n n' : String} {v w : Context}

theorem objectOf_injective {m m' : SMap Json} (h : objectOf m = objectOf m') : m = m' := by
  injection h with h
  exact Std.ExtTreeMap.toList_inj.1 h

theorem indexJson_injective {i j : Option Nat} (h : indexJson i = indexJson j) : i = j := by
  cases i with
  | none =>
    cases j with
    | none => rfl
    | some j => cases h
  | some i =>
    cases j with
    | none => cases h
    | some j =>
      injection h with h
      rw [Nat.cast_injective h]

/-- The fields the key is made of, as the worker decodes them. -/
structure Keyed (v w : Context) : Prop where
  input : v.input = w.input
  channels : v.channels = w.channels
  results : v.handed.results = w.handed.results
  signals : v.handed.signals = w.handed.signals
  item : v.item.encoded = w.item.encoded
  resume : v.resume.encoded = w.resume.encoded
  index : v.index = w.index
  resumedBy : v.resumedBy = w.resumedBy
  interrupt : v.interrupt = w.interrupt

theorem handed_of_encoded {m m' : SMap Raw}
    (h : (m.map fun _ r => Raw.encoded r) = m'.map fun _ r => Raw.encoded r) :
    (m.map fun _ r => some (Raw.encoded r)) = m'.map fun _ r => some (Raw.encoded r) := by
  have h := congrArg (fun m : SMap Json => m.map fun _ j => some j) h
  simpa [Std.ExtTreeMap.map_map] using h

/-- The two members that may be missing are told apart by their names. -/
theorem optional_members {i j : Raw} {a b : String}
    (h : (i.toList.map fun i => ("In", i)) ++ (if a = "" then [] else [("By", Json.str a)]) =
      (j.toList.map fun i => ("In", i)) ++ if b = "" then [] else [("By", Json.str b)]) : i = j ∧ a = b := by
  have hby : ∀ {a b : String}, (if a = "" then [] else [("By", Json.str a)]) = (if b = "" then [] else [("By", Json.str b)]) → a = b := by
    intro a b h
    by_cases ha : a = "" <;> by_cases hb : b = "" <;> simp_all
  cases i with
  | none =>
    cases j with
    | none => exact ⟨rfl, hby h⟩
    | some j => by_cases ha : a = "" <;> simp [ha] at h
  | some i =>
    cases j with
    | none => by_cases hb : b = "" <;> simp [hb] at h
    | some j =>
      simp only [Option.toList_some, List.map_cons, List.map_nil, List.cons_append, List.nil_append, List.cons.injEq,
        Prod.mk.injEq, true_and] at h
      exact ⟨congrArg some h.1, hby h.2⟩

theorem keyed_of_cacheRecord (h : cacheRecord f n v = cacheRecord f' n' w) : f = f' ∧ n = n' ∧ Keyed v w := by
  injection h with h
  simp only [List.cons_append, List.nil_append, List.cons.injEq, Prod.mk.injEq, true_and, Json.str.injEq] at h
  obtain ⟨hf, hn, hin, hch, hres, hsig, hitem, hresume, hidx, hopt⟩ := h
  obtain ⟨hint, hby⟩ := optional_members hopt
  exact ⟨hf, hn, hin, objectOf_injective hch, handed_of_encoded (objectOf_injective hres), handed_of_encoded (objectOf_injective hsig),
    hitem, hresume, indexJson_injective hidx, hby, hint⟩

/-! ## What the key leaves out -/

/-- Agreement on what the key does not hold. -/
structure LeftOutAlike (v w : Context) : Prop where
  lastNode : v.lastNode = w.lastNode
  branches : v.branches = w.branches
  counters : v.counters = w.counters
  errors : v.errors = w.errors
  item : v.item.isSome = w.item.isSome
  resume : v.resume.isSome = w.resume.isSome

/-- Everything a worker is handed but the visit counts. -/
def Context.observed (v : Context) : Context := { v.handed with visits := ∅ }

theorem eq_of_encoded {r r' : Raw} (h : r.encoded = r'.encoded) (hs : r.isSome = r'.isSome) : r = r' := by
  cases r with
  | none =>
    cases r' with
    | none => rfl
    | some j => cases hs
  | some i =>
    cases r' with
    | none => cases hs
    | some j => exact congrArg some h

theorem Keyed.observed (h : Keyed v w) : v.observed = w.observed ↔ LeftOutAlike v w := by
  constructor
  · intro he
    simp only [Context.observed, Context.handed, Context.mk.injEq] at he
    obtain ⟨-, -, -, hlast, -, -, hbranches, hcounters, herrors, hitem, -, hresume, -, -⟩ := he
    exact ⟨hlast, hbranches, hcounters, herrors, by rw [hitem], by rw [hresume]⟩
  · intro hl
    have hitem := eq_of_encoded h.item hl.item
    have hresume := eq_of_encoded h.resume hl.resume
    have hres : (v.results.map fun _ r => some r.encoded) = w.results.map fun _ r => some r.encoded := h.results
    have hsig : (v.signals.map fun _ r => some r.encoded) = w.signals.map fun _ r => some r.encoded := h.signals
    simp only [Context.observed, Context.handed, hres, hsig, hitem, hresume, h.input, h.channels, h.index, h.resumedBy, h.interrupt,
      hl.lastNode, hl.branches, hl.counters, hl.errors]

/-- **One key, one flow version and one node; and the same view exactly when what the key leaves out agrees.** -/
theorem same_key_same_view {Digest : Type} {sha : Json → Digest} (hsha : Function.Injective sha)
    (hkey : cacheKey sha f n v = cacheKey sha f' n' w) : f = f' ∧ n = n' ∧ (v.observed = w.observed ↔ LeftOutAlike v w) := by
  obtain ⟨hf, hn, hk⟩ := keyed_of_cacheRecord (hsha hkey)
  exact ⟨hf, hn, hk.observed⟩

end

/-! ## A handler of errors -/

/-- `mend` handles the failure of `draft`, and its results are cached. -/
def mendedReview : Flow :=
  { oneTask with
    nodes := [{ id := "draft", type := .task, kind := "write", onFailure := "mend" },
      { id := "mend", type := .task, kind := "fix", cacheTTL := some 3600000000000 }] }

/-- `draft` fails with `error`, for good. -/
def mending (error : String) : Option (State × List (List Event)) :=
  serve plainExt mendedReview (State.new "r1") []
    [(startReview, 1), (⟨"fail-1", .fail { key := "draft", generation := 1, attempt := 1, error, retryable := false }⟩, 2)]

def refused : State × List (List Event) := (mending "refused").get (by decide +kernel)

def timedOut : State × List (List Event) := (mending "timed out").get (by decide +kernel)

def State.mendView (s : State) : Context := s.contextView s.tasks["mend"]?

/-- A view of an execution that was started without input and got nothing from anybody yet. -/
def Context.bare (v : Context) : Bool :=
  (match v.input with | .obj [] => true | _ => false) && v.channels.isEmpty && v.results.isEmpty && v.signals.isEmpty && v.item.isNone &&
    v.index.isNone && v.resume.isNone && v.resumedBy == "" && v.interrupt.isNone

theorem cacheRecord_of_bare {v : Context} (h : v.bare = true) (f n : String) :
    cacheRecord f n v = .obj [("F", .str f), ("N", .str n), ("I", .obj []), ("C", .obj []), ("R", .obj []), ("S", .obj []),
      ("It", .null), ("Re", .null), ("Idx", .null)] := by
  simp only [Context.bare, Bool.and_eq_true, beq_iff_eq, Option.isNone_iff_eq_none, Std.ExtTreeMap.isEmpty_iff] at h
  obtain ⟨⟨⟨⟨⟨⟨⟨⟨hinput, hch⟩, hres⟩, hsig⟩, hitem⟩, hidx⟩, hresume⟩, hby⟩, hint⟩ := h
  have hobj : v.input = .obj [] := by
    cases hv : v.input with
    | obj ms =>
      cases ms with
      | nil => rfl
      | cons m ms => rw [hv] at hinput; cases hinput
    | _ => rw [hv] at hinput; cases hinput
  simp [cacheRecord, hobj, hch, hres, hsig, hitem, hidx, hresume, hby, hint, objectOf, indexJson, Raw.encoded]

/-- The same failure after other visits. -/
theorem refused_view_agrees :
    cacheKey id refused.1.flowHash "mend" refused.1.mendView = cacheKey id refused.1.flowHash "mend" { refused.1.mendView with visits := ∅ } ∧
    refused.1.mendView.observed = ({ refused.1.mendView with visits := ∅ } : Context).observed := by
  have hkey : cacheKey id refused.1.flowHash "mend" refused.1.mendView =
    cacheKey id refused.1.flowHash "mend" { refused.1.mendView with visits := ∅ } := rfl
  exact ⟨hkey, (same_key_same_view Function.injective_id hkey).2.2.2 ⟨rfl, rfl, rfl, rfl, rfl, rfl⟩⟩

/-- The failure of `draft` that `mend` is to handle is not in the key. -/
theorem other_error_same_key : validate plainExt mendedReview = [] ∧
    (∃ log, Reachable plainExt mendedReview refused.1 log) ∧ (∃ log, Reachable plainExt mendedReview timedOut.1 log) ∧
    refused.1.tasks["mend"]?.isSome = true ∧ timedOut.1.tasks["mend"]?.isSome = true ∧
    cacheKey id refused.1.flowHash "mend" refused.1.mendView = cacheKey id timedOut.1.flowHash "mend" timedOut.1.mendView ∧
    refused.1.mendView.errors["draft"]? ≠ timedOut.1.mendView.errors["draft"]? := by
  have hr : Reachable plainExt mendedReview refused.1 refused.2 := (Reachable.new "r1").serve (Option.some_get _).symm
  have ht : Reachable plainExt mendedReview timedOut.1 timedOut.2 := (Reachable.new "r1").serve (Option.some_get _).symm
  have hhash : refused.1.flowHash = timedOut.1.flowHash := by decide +kernel
  have hbare : refused.1.mendView.bare = true := by decide +kernel
  have hbare' : timedOut.1.mendView.bare = true := by decide +kernel
  refine ⟨by decide +kernel, ⟨_, hr⟩, ⟨_, ht⟩, by decide +kernel, by decide +kernel, ?_, by decide +kernel⟩
  rw [cacheKey, cacheKey, cacheRecord_of_bare hbare, cacheRecord_of_bare hbare', hhash]

end Packtrail
