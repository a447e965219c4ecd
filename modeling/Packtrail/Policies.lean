import Packtrail.Shape
import Packtrail.Joins

/-
# Join policies

A join's policy is a string that `JoinKind` takes apart each time it is needed (`flow/flow.go:424-450`): `Validate`
checks it (`flow/validate.go:602-617`, `flow/graph.go:155`) and `evalJoin` counts with it (`decide.go:900-919`). `Means`
is what the policies documented mean. A string that is none of them is its own kind with count 0, so a bare `min`
passes for `min:0`. **`policy_exact_iff`**: the policies accepted are those documented, and the join counts with the
documented number, exactly when the policy is not that one.
-/

namespace Packtrail

/-! ## The documented policies -/

/-- The trimmed policy `p` is one of those documented. -/
inductive Means (p : String) : JoinKind → Prop
  | all (h : trimSpace p = "" ∨ trimSpace p = "all") : Means p .all
  | any (h : trimSpace p = "any") : Means p .any
  | quorum {s : String} {n : Int} (h : trimSpace p = "quorum:" ++ s) (hn : atoi s = some n) : Means p (.quorum n)
  | min {s : String} {n : Int} (h : trimSpace p = "min:" ++ s) (hn : atoi s = some n) : Means p (.min n)

/-- The count of a policy fits the number of branches that are awaited. -/
def JoinKind.Within (awaited : Nat) : JoinKind → Prop
  | .all | .any => True
  | .quorum n => 1 ≤ n ∧ n ≤ awaited
  | .min n => 0 ≤ n ∧ n ≤ awaited
  | .unknown _ => False

def Node.withPolicy (id p : String) (n : Node) : Node := if n.id = id then { n with policy := p } else n

/-- The flow with another policy for the node `id`. -/
def Flow.withPolicy (f : Flow) (id p : String) : Flow := { f with nodes := f.nodes.map (Node.withPolicy id p) }

/-- Join `j` of the valid flow `f` with policy `p`: the flow is accepted when `p` means something that fits, and
the join then settles by the number `p` means. -/
structure PolicyExact (x : Ext) (f : Flow) (j : Node) (p : String) : Prop where
  accepted : validate x (f.withPolicy j.id p) = [] ↔ ∃ kind, Means p kind ∧ kind.Within (f.waitFor j.id).length
  counted : ∀ kind, Means p kind → ({ j with policy := p } : Node).joinKind = kind ∧
    ∀ (fan : Fan) (ok : Bool), (tally kind (f.waitFor j.id) fan).verdict = some ok →
      (ok = true ↔ kind.needed (f.waitFor j.id).length ≤ (tally kind (f.waitFor j.id) fan).succeeded.length)

/-! ## Taking a policy apart -/

theorem dropPrefix_some {p t s : String} : dropPrefix? p t = some s ↔ t = p ++ s := by
  unfold dropPrefix?
  constructor
  · intro h
    split at h
    · rename_i hp
      obtain ⟨r, hr⟩ := List.isPrefixOf_iff_prefix.1 hp
      cases h
      apply String.toList_injective
      simp [← hr]
    · cases h
  · rintro rfl
    simp

theorem dropPrefix_none {p t : String} : dropPrefix? p t = none ↔ ∀ s, t ≠ p ++ s := by
  rw [Option.eq_none_iff_forall_ne_some]
  exact forall_congr' fun s => not_congr dropPrefix_some

/-- A policy with a count is none of the others. -/
theorem append_ne {c : Char} {q s t : String} (hq : q.toList.head? = some c) (ht : t.toList.head? ≠ some c) : q ++ s ≠ t := by
  rintro rfl
  cases hl : q.toList with
  | nil => simp [hl] at hq
  | cons a l => simp_all

section
variable {j : Node} {p : String}

theorem joinKind_all (h : trimSpace p = "" ∨ trimSpace p = "all") : ({ j with policy := p } : Node).joinKind = .all := if_pos h

theorem joinKind_any (h : trimSpace p = "any") : ({ j with policy := p } : Node).joinKind = .any := by
  simp [Node.joinKind, h]

theorem joinKind_quorum {s : String} (h : trimSpace p = "quorum:" ++ s) :
    ({ j with policy := p } : Node).joinKind = .quorum (joinCount s) := by
  have hne : ∀ t : String, t.toList.head? ≠ some 'q' → "quorum:" ++ s ≠ t := fun t ht => append_ne rfl ht
  simp only [Node.joinKind, h]
  rw [if_neg (not_or.2 ⟨hne _ (by decide), hne _ (by decide)⟩), if_neg (hne _ (by decide)), dropPrefix_some.2 rfl]

theorem joinKind_min {s : String} (h : trimSpace p = "min:" ++ s) : ({ j with policy := p } : Node).joinKind = .min (joinCount s) := by
  have hne : ∀ t : String, t.toList.head? ≠ some 'm' → "min:" ++ s ≠ t := fun t ht => append_ne rfl ht
  have hquorum : dropPrefix? "quorum:" ("min:" ++ s) = none := dropPrefix_none.2 fun r => hne _ (by simp)
  simp only [Node.joinKind, h]
  rw [if_neg (not_or.2 ⟨hne _ (by decide), hne _ (by decide)⟩), if_neg (hne _ (by decide)), hquorum]
  simp only [dropPrefix_some.2 rfl]

theorem joinKind_bare (h : trimSpace p = "min") : ({ j with policy := p } : Node).joinKind = .min 0 := by
  have hquorum : dropPrefix? "quorum:" "min" = none := by decide
  have hmin : dropPrefix? "min:" "min" = none := by decide
  simp [Node.joinKind, h, hquorum, hmin]

theorem not_means_bare (h : trimSpace p = "min") (kind : JoinKind) : ¬Means p kind := by
  have hnone : ∀ (q s : String), dropPrefix? q "min" = none → trimSpace p ≠ q ++ s := fun q s hq => h ▸ dropPrefix_none.1 hq s
  intro hm
  cases hm with
  | all hall => rw [h] at hall; revert hall; decide
  | any hany => rw [h] at hany; revert hany; decide
  | quorum hq _ => exact hnone _ _ (by decide) hq
  | min hq _ => exact hnone _ _ (by decide) hq

/-- What passes is documented, or a bare `min`. -/
theorem means_of_within {m : Nat} (h : (({ j with policy := p } : Node).joinKind).Within m) :
    (∃ kind, Means p kind) ∨ trimSpace p = "min" := by
  by_cases hall : trimSpace p = "" ∨ trimSpace p = "all"
  · exact .inl ⟨_, .all hall⟩
  by_cases hany : trimSpace p = "any"
  · exact .inl ⟨_, .any hany⟩
  cases hq : dropPrefix? "quorum:" (trimSpace p) with
  | some s =>
    rw [joinKind_quorum (dropPrefix_some.1 hq), joinCount] at h
    cases hn : atoi s with
    | some n => exact .inl ⟨_, .quorum (dropPrefix_some.1 hq) hn⟩
    | none =>
      simp only [hn, Option.getD_none, JoinKind.Within] at h
      omega
  | none =>
    cases hm : dropPrefix? "min:" (trimSpace p) with
    | some s =>
      rw [joinKind_min (dropPrefix_some.1 hm), joinCount] at h
      cases hn : atoi s with
      | some n => exact .inl ⟨_, .min (dropPrefix_some.1 hm) hn⟩
      | none =>
        simp only [hn, Option.getD_none, JoinKind.Within] at h
        omega
    | none =>
      by_cases hbare : trimSpace p = "min"
      · exact .inr hbare
      · simp only [Node.joinKind, if_neg hall, if_neg hany, hq, hm, if_neg hbare] at h
        split at h
        · simp only [JoinKind.Within] at h
          omega
        · exact h.elim

theorem Means.joinKind {kind : JoinKind} (h : Means p kind) : ({ j with policy := p } : Node).joinKind = kind := by
  cases h with
  | all h => exact joinKind_all h
  | any h => exact joinKind_any h
  | quorum h hn => rw [joinKind_quorum h, joinCount, hn]; rfl
  | min h hn => rw [joinKind_min h, joinCount, hn]; rfl

/-- A policy passes when it means something that fits, or is a bare `min`. -/
theorem within_iff {m : Nat} : (({ j with policy := p } : Node).joinKind).Within m ↔
    (∃ kind, Means p kind ∧ kind.Within m) ∨ trimSpace p = "min" := by
  constructor
  · intro h
    refine (means_of_within h).imp_left fun ⟨kind, hk⟩ => ⟨kind, hk, ?_⟩
    rwa [hk.joinKind] at h
  · rintro (⟨kind, hk, hw⟩ | hbare)
    · rwa [hk.joinKind]
    · rw [joinKind_bare hbare]
      exact ⟨le_rfl, by omega⟩

end

/-! ## What a policy changes in a flow -/

section
variable {x : Ext} {f : Flow} {j : Node} {p : String}

/-- The checks of a node read of the others only whether they are there. -/
theorem nodeProblems_congr {g : Flow} (h : ∀ k, (f.node k).isNone = (g.node k).isNone) (n : Node) :
    nodeProblems x f n = nodeProblems x g n := by
  have href : refProblems x f = refProblems x g := by
    ext1 n
    ext1 field
    ext1 k
    simp only [refProblems, h]
  have hrules : ∀ (rs : List Rule) (i : Nat) (named : List String), rulesProblems x f n i named rs = rulesProblems x g n i named rs := by
    intro rs
    induction rs with
    | nil => intros; rfl
    | cons r rs ih =>
      intro i named
      simp only [rulesProblems, ruleProblems, href, ih]
  have hwaits : ∀ (ws seen : List String) (i : Nat), waitForProblems x f n i seen ws = waitForProblems x g n i seen ws := by
    intro ws
    induction ws with
    | nil => intros; rfl
    | cons w ws ih =>
      intro seen i
      simp only [waitForProblems, href, ih]
  simp only [nodeProblems, typeProblems, taskProblems, choiceProblems, fanoutProblems, awaitProblems, href, hrules, hwaits]

theorem waitForProblems_policy : ∀ (ws seen : List String) (i : Nat),
    waitForProblems x f { j with policy := p } i seen ws = waitForProblems x f j i seen ws
  | [], _, _ => rfl
  | w :: ws, seen, i => by
    simp only [waitForProblems, waitForProblems_policy]
    rfl

theorem unless_nil {α : Type} {b : Prop} [Decidable b] {l : List α} : (if b then [] else l) = [] ↔ (¬b → l = []) := by
  split <;> simp [*]

/-- The policy of a join is checked on its own. -/
theorem nodeProblems_join {n : Node} (ht : n.type = .join) : nodeProblems x f n = [] ↔
    (foreignProblems n = [] ∧ metaProblems n = [] ∧ waitForProblems x f n 0 [] n.waitFor = [] ∧
      (n.next ≠ "" → refProblems x f n "next" n.next = [] ∧ n.next ≠ n.id) ∧
      (n.onFailure ≠ "" → refProblems x f n "on_failure" n.onFailure = [] ∧ n.onFailure ≠ n.id)) ∧ policyProblems x n = [] := by
  simp only [nodeProblems, typeProblems, ht, List.append_eq_nil_iff, unless_nil, problemIf_nil, decide_eq_false_iff_not]
  constructor
  · rintro ⟨⟨⟨⟨hf, hm⟩, hw, hp⟩, hn⟩, ho⟩
    exact ⟨⟨hf, hm, hw, hn, ho⟩, hp⟩
  · rintro ⟨⟨hf, hm, hw, hn, ho⟩, hp⟩
    exact ⟨⟨⟨⟨hf, hm⟩, hw, hp⟩, hn⟩, ho⟩

/-- A join may have any policy that passes. -/
theorem nodeProblems_policy (ht : j.type = .join) (h : nodeProblems x f j = []) :
    nodeProblems x f { j with policy := p } = [] ↔ policyProblems x { j with policy := p } = [] := by
  have hforeign : foreignFields { j with policy := p } = foreignFields j := by
    simp [foreignFields, ht, allowedFields, fieldSet, List.filter_cons]
  obtain ⟨⟨hf, hm, hw, hn, ho⟩, -⟩ := (nodeProblems_join ht).1 h
  rw [nodeProblems_join (show ({ j with policy := p } : Node).type = .join from ht)]
  refine and_iff_right ⟨?_, hm, ?_, hn, ho⟩
  · unfold foreignProblems at hf ⊢
    rw [hforeign]
    exact hf
  · rw [waitForProblems_policy]
    exact hw

end

namespace Node

variable {id p : String} {n : Node}

@[simp] theorem withPolicy_id : (n.withPolicy id p).id = n.id := by unfold withPolicy; split <;> rfl
@[simp] theorem withPolicy_type : (n.withPolicy id p).type = n.type := by unfold withPolicy; split <;> rfl
@[simp] theorem withPolicy_next : (n.withPolicy id p).next = n.next := by unfold withPolicy; split <;> rfl
@[simp] theorem withPolicy_branches : (n.withPolicy id p).branches = n.branches := by unfold withPolicy; split <;> rfl
@[simp] theorem withPolicy_waitFor : (n.withPolicy id p).waitFor = n.waitFor := by unfold withPolicy; split <;> rfl
@[simp] theorem withPolicy_routes : routes (n.withPolicy id p) = routes n := by unfold withPolicy; split <;> rfl
@[simp] theorem withPolicy_successors : successors (n.withPolicy id p) = successors n := by unfold withPolicy; split <;> rfl

theorem withPolicy_self : n.withPolicy n.id p = { n with policy := p } := if_pos rfl

theorem withPolicy_of_ne (h : n.id ≠ id) : n.withPolicy id p = n := if_neg h

end Node

namespace Flow

variable {f : Flow} {id p : String}

theorem withPolicy_node (k : String) : (f.withPolicy id p).node k = (f.node k).map (Node.withPolicy id p) := by
  unfold Flow.node Flow.withPolicy
  rw [List.find?_map]
  simp

theorem mem_withPolicy {n : Node} : n ∈ (f.withPolicy id p).nodes ↔ ∃ m ∈ f.nodes, m.withPolicy id p = n := List.mem_map

theorem withPolicy_fanouts : (f.withPolicy id p).fanouts = f.fanouts.map (Node.withPolicy id p) := by
  unfold Flow.fanouts fanoutsIn Flow.withPolicy
  rw [List.filter_map]
  simp [Function.comp_def]

theorem withPolicy_allBranches : (f.withPolicy id p).allBranches = f.allBranches := by
  unfold Flow.allBranches
  rw [withPolicy_fanouts, List.flatMap_map]
  simp

theorem withPolicy_leads : (f.withPolicy id p).Leads = f.Leads := by
  ext a b
  unfold Flow.Leads
  rw [withPolicy_node]
  simp

end Flow

section
variable {x : Ext} {f : Flow} {j : Node} {p : String}

theorem Local.withPolicy_inj (h : Local x f) {m n : Node} {id : String} (hm : m ∈ f.nodes) (hn : n ∈ f.nodes) :
    m.withPolicy id p = n.withPolicy id p ↔ m = n := by
  refine ⟨fun he => h.eq_of_id hm hn ?_, fun he => he ▸ rfl⟩
  have := congrArg Node.id he
  simpa using this

theorem Local.withPolicy_startsAt (h : Local x f) {n : Node} {id : String} (hn : n ∈ f.nodes) :
    (f.withPolicy id p).StartsAt (n.withPolicy id p) ↔ f.StartsAt n := by
  have hstart : (f.withPolicy id p).start = f.start := rfl
  unfold Flow.StartsAt
  rw [hstart, Flow.withPolicy_allBranches, Node.withPolicy_id, Node.withPolicy_type]
  split
  · rfl
  · simp only [Flow.withPolicy, List.forall_mem_map, Node.withPolicy_id, Node.withPolicy_successors]
    exact forall₂_congr fun m hm => iff_congr Iff.rfl (h.withPolicy_inj hm hn)

/-- Another policy leaves the shape of the graph alone, apart from its own count. -/
theorem Shaped.withPolicy (h : Local x f) (hs : Shaped f) (hj : j ∈ f.nodes) (ht : j.type = .join)
    (hcount : ∀ q, ({ j with policy := p } : Node).joinKind = .quorum q ∨ ({ j with policy := p } : Node).joinKind = .min q →
      ∀ fan ∈ f.fanouts, fan.next = j.id → q ≤ (awaited fan j).length) : Shaped (f.withPolicy j.id p) := by
  have hfan : ∀ {fan}, fan ∈ (f.withPolicy j.id p).fanouts ↔ ∃ m ∈ f.fanouts, m.withPolicy j.id p = fan := by
    intro fan
    rw [Flow.withPolicy_fanouts, List.mem_map]
  refine
    { closed := ?_
      closes := ?_
      once := by rw [Flow.withPolicy_allBranches]; exact hs.once
      branch := ?_
      route := ?_
      waits := ?_
      count := ?_
      reached := ?_ }
  · intro fan hmem
    obtain ⟨m, hm, rfl⟩ := hfan.1 hmem
    obtain ⟨k, hk, hkt, hnext⟩ := hs.closed m hm
    exact ⟨_, Flow.mem_withPolicy.2 ⟨k, hk, rfl⟩, by simpa using hkt, by simpa using hnext⟩
  · intro k hmem hkt
    obtain ⟨k, hk, rfl⟩ := Flow.mem_withPolicy.1 hmem
    obtain ⟨fan, ⟨hm, hnext⟩, hone⟩ := hs.closes k hk (by simpa using hkt)
    refine ⟨fan.withPolicy j.id p, ⟨hfan.2 ⟨fan, hm, rfl⟩, by simpa using hnext⟩, ?_⟩
    rintro fan' ⟨hmem', hnext'⟩
    obtain ⟨m, hm', rfl⟩ := hfan.1 hmem'
    rw [hone m ⟨hm', by simpa using hnext'⟩]
  · intro b hb bn hbn
    rw [Flow.withPolicy_allBranches] at hb
    rw [Flow.withPolicy_node, Option.map_eq_some_iff] at hbn
    obtain ⟨m, hm, rfl⟩ := hbn
    simpa using hs.branch b hb m hm
  · intro n hmem r hr
    obtain ⟨m, hm, rfl⟩ := Flow.mem_withPolicy.1 hmem
    rw [Node.withPolicy_routes] at hr
    obtain ⟨hout, hjoin⟩ := hs.route m hm r hr
    refine ⟨by rwa [Flow.withPolicy_allBranches], fun t htarget htype => ?_⟩
    rw [Flow.withPolicy_node, Option.map_eq_some_iff] at htarget
    obtain ⟨t, htarget, rfl⟩ := htarget
    simpa using hjoin t htarget (by simpa using htype)
  · intro fan hmem k hkmem hkt hnext
    obtain ⟨m, hm, rfl⟩ := hfan.1 hmem
    obtain ⟨k, hk, rfl⟩ := Flow.mem_withPolicy.1 hkmem
    simpa using hs.waits m hm k hk (by simpa using hkt) (by simpa using hnext)
  · intro fan hmem k hkmem hkt hnext q hq
    obtain ⟨m, hm, rfl⟩ := hfan.1 hmem
    obtain ⟨k, hk, rfl⟩ := Flow.mem_withPolicy.1 hkmem
    have hawaited : awaited (m.withPolicy j.id p) (k.withPolicy j.id p) = awaited m k := by simp [awaited]
    rw [hawaited]
    rw [Node.withPolicy_next, Node.withPolicy_id] at hnext
    by_cases he : k.id = j.id
    · obtain rfl := h.eq_of_id hk hj he
      rw [Node.withPolicy_self] at hq
      exact hcount q hq m hm hnext
    · rw [Node.withPolicy_of_ne he] at hq
      exact hs.count m hm k hk (by simpa using hkt) hnext q hq
  · obtain ⟨n, hn, hat, hreach⟩ := hs.reached
    refine ⟨_, Flow.mem_withPolicy.2 ⟨n, hn, rfl⟩, (h.withPolicy_startsAt hn).2 hat, fun m hmem => ?_⟩
    obtain ⟨m, hm, rfl⟩ := Flow.mem_withPolicy.1 hmem
    rw [Flow.withPolicy_leads, Node.withPolicy_id, Node.withPolicy_id]
    exact hreach m hm

theorem indexProblems_withPolicy {id : String} : ∀ (ns : List Node) (seen : List String),
    indexProblems x seen (ns.map (Node.withPolicy id p)) = indexProblems x seen ns
  | [], _ => rfl
  | n :: ns, seen => by simp only [List.map_cons, indexProblems, Node.withPolicy_id, indexProblems_withPolicy ns]

theorem localProblems_withPolicy (hl : localProblems x f = []) (hj : j ∈ f.nodes) (ht : j.type = .join) :
    localProblems x (f.withPolicy j.id p) = [] ↔ policyProblems x { j with policy := p } = [] := by
  have h := local_of_problems hl
  have hnode : ∀ n, nodeProblems x (f.withPolicy j.id p) n = nodeProblems x f n := nodeProblems_congr fun k => by
    rw [Flow.withPolicy_node, Option.isNone_map]
  simp only [localProblems, List.append_eq_nil_iff, List.flatMap_eq_nil_iff] at hl ⊢
  obtain ⟨⟨⟨hhead, hidx⟩, hflow⟩, hnodes⟩ := hl
  constructor
  · rintro ⟨-, hall⟩
    have := hall _ (Flow.mem_withPolicy.2 ⟨j, hj, Node.withPolicy_self⟩)
    rw [hnode] at this
    exact (nodeProblems_policy ht (hnodes j hj)).1 this
  · intro hp
    refine ⟨⟨⟨hhead, ?_⟩, hflow⟩, fun n hn => ?_⟩
    · exact (indexProblems_withPolicy f.nodes []).trans hidx
    · obtain ⟨m, hm, rfl⟩ := Flow.mem_withPolicy.1 hn
      rw [hnode]
      by_cases he : m.id = j.id
      · obtain rfl := h.eq_of_id hm hj he
        rw [Node.withPolicy_self]
        exact (nodeProblems_policy ht (hnodes m hm)).2 hp
      · rw [Node.withPolicy_of_ne he]
        exact hnodes m hm

/-- The two checks of a policy. -/
theorem within_iff_checks {n : Node} {m : Nat} : n.joinKind.Within m ↔
    policyProblems x n = [] ∧ ∀ q, n.joinKind = .quorum q ∨ n.joinKind = .min q → q ≤ m := by
  unfold policyProblems
  cases hk : n.joinKind <;> simp [JoinKind.Within]
  omega

theorem validate_withPolicy (hv : validate x f = []) (hj : j ∈ f.nodes) (ht : j.type = .join) :
    validate x (f.withPolicy j.id p) = [] ↔ (({ j with policy := p } : Node).joinKind).Within (f.waitFor j.id).length := by
  have hl := local_of_validate hv
  have h := local_of_problems hl
  have hs := shaped_of_validate hv
  have hg := h.good (h.fansOk_iff.2 (hs.fansOk h))
  rw [@within_iff_checks x]
  constructor
  · intro hv'
    have hl' := local_of_validate hv'
    refine ⟨(localProblems_withPolicy hl hj ht).1 hl', fun q hq => ?_⟩
    obtain ⟨fan, ⟨hfan, hnext⟩, -⟩ := hs.closes j hj ht
    rw [h.waitFor_eq hg hfan hj hnext]
    have hcount := (shaped_of_validate hv').count (fan.withPolicy j.id p)
      (by rw [Flow.withPolicy_fanouts]; exact List.mem_map_of_mem hfan) _ (Flow.mem_withPolicy.2 ⟨j, hj, Node.withPolicy_self⟩) ht
      (by simpa using hnext) q hq
    have hawaited : awaited (fan.withPolicy j.id p) { j with policy := p } = awaited fan j := by simp [awaited]
    rwa [hawaited] at hcount
  · rintro ⟨hp, hcount⟩
    refine (hs.withPolicy h hj ht fun q hq fan hfan hnext => ?_).validate ((localProblems_withPolicy hl hj ht).2 hp)
    rw [← h.waitFor_eq hg hfan hj hnext]
    exact hcount q hq

/-- A join that settles does so by the number its policy needs. -/
theorem tally_counts {kind : JoinKind} {waits : List String} {fan : Fan} {ok : Bool} (h : (tally kind waits fan).verdict = some ok) :
    ok = true ↔ kind.needed waits.length ≤ (tally kind waits fan).succeeded.length := by
  -- a verdict by counting, for a policy that does not wait for every branch
  have count : ∀ need succeeded pending : Int, (if need ≤ succeeded then some true else if need ≤ succeeded + pending then none
      else some false) = some ok → (ok = true ↔ need ≤ succeeded) := by
    intro need succeeded pending hv
    by_cases hs : need ≤ succeeded
    · rw [if_pos hs] at hv
      simp [← Option.some.inj hv, hs]
    · rw [if_neg hs] at hv
      split at hv
      · cases hv
      · simp [← Option.some.inj hv, hs]
  cases kind with
  | min q =>
    simp only [tally] at h ⊢
    split at h
    · cases h
    · simp [← Option.some.inj h, JoinKind.needed]
  | _ => exact count _ _ _ h

/-- **Policies are taken as documented, but for a bare `min`.** -/
theorem policy_exact_iff (hv : validate x f = []) (hj : j ∈ f.nodes) (ht : j.type = .join) :
    PolicyExact x f j p ↔ trimSpace p ≠ "min" := by
  constructor
  · intro h hbare
    obtain ⟨kind, hk, -⟩ := h.accepted.1 ((validate_withPolicy hv hj ht).2 (within_iff.2 (.inr hbare)))
    exact not_means_bare hbare kind hk
  · intro hne
    refine ⟨?_, fun kind hk => ⟨hk.joinKind, fun fan ok => tally_counts⟩⟩
    rw [validate_withPolicy hv hj ht, within_iff, or_iff_left hne]

end

/-- The join of `sidesReview`. -/
def mergeSides : Node := { id := "merge", type := .join, policy := "quorum:1" }

theorem mergeSides_exact : PolicyExact plainExt sidesReview mergeSides " min:2 " :=
  (policy_exact_iff (by decide +kernel) (by simp [sidesReview, mergeSides]) rfl).2 (by decide +kernel)

/-- A bare `min` is accepted, means nothing that is documented, and needs no branch to succeed. -/
theorem bare_min_accepted : validate plainExt (sidesReview.withPolicy "merge" "min") = [] ∧ (∀ kind, ¬Means "min" kind) ∧
    ({ mergeSides with policy := "min" } : Node).joinKind = .min 0 :=
  ⟨by decide +kernel, not_means_bare (by decide +kernel), joinKind_bare (by decide +kernel)⟩

end Packtrail
