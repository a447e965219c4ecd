import Packtrail.Lib.Search
import Packtrail.Decisions

/-
# Which graphs are accepted

`Validate` checks the graph of a flow in passes over its nodes, with indexes that grow on the way and a worklist
search (`flow/graph.go`). `Shaped` says what a well formed graph is without them: in terms of the nodes, their
routes and their branches. **`validate_shaped`**: a flow whose nodes are valid on their own is accepted exactly when
its graph is well formed.
-/

namespace Packtrail

open Relation

/-! ## Well formed graphs -/

section
variable (f : Flow)

def fanoutsIn (ns : List Node) : List Node := ns.filter fun n => n.type = .fanout

def Flow.fanouts : List Node := fanoutsIn f.nodes

/-- All branches of all fan-outs, as they are listed. -/
def Flow.allBranches : List String := f.fanouts.flatMap Node.branches

/-- Control passes from `a` to `b` along a route or to a branch. -/
def Flow.Leads (a b : String) : Prop := ∃ n, f.node a = some n ∧ b ∈ successors n

/-- The branches that join `j` waits for when it closes `fan`. -/
def awaited (fan j : Node) : List String := if j.waitFor ≠ [] then j.waitFor else fan.branches

/-- The explicit start, which is neither a branch nor a join; or the only node that nothing leads to. -/
def Flow.StartsAt (n : Node) : Prop :=
  if f.start ≠ "" then n.id = f.start ∧ n.type ≠ .join ∧ n.id ∉ f.allBranches
  else ∀ m ∈ f.nodes, (∀ a ∈ f.nodes, m.id ∉ successors a) ↔ m = n

structure Shaped : Prop where
  /-- Every fan-out leads to a join. -/
  closed : ∀ fan ∈ f.fanouts, ∃ j ∈ f.nodes, j.type = .join ∧ fan.next = j.id
  /-- Each join closes exactly one fan-out. -/
  closes : ∀ j ∈ f.nodes, j.type = .join → ∃! fan, fan ∈ f.fanouts ∧ fan.next = j.id
  /-- No node is listed twice. -/
  once : f.allBranches.Nodup
  branch : ∀ b ∈ f.allBranches, ∀ bn, f.node b = some bn → (bn.type = .task ∨ bn.type = .subflow) ∧ routes bn = []
  /-- A route leads to no branch, and to a join only as the next of its fan-out. -/
  route : ∀ n ∈ f.nodes, ∀ r ∈ routes n, r.target ∉ f.allBranches ∧
    ∀ t, f.node r.target = some t → t.type = .join → n.type = .fanout ∧ n.next = r.target
  waits : ∀ fan ∈ f.fanouts, ∀ j ∈ f.nodes, j.type = .join → fan.next = j.id → ∀ w ∈ j.waitFor, w ∈ fan.branches
  count : ∀ fan ∈ f.fanouts, ∀ j ∈ f.nodes, j.type = .join → fan.next = j.id →
    ∀ q, j.joinKind = .quorum q ∨ j.joinKind = .min q → q ≤ (awaited fan j).length
  /-- Everything can be reached from the start. -/
  reached : ∃ n ∈ f.nodes, f.StartsAt n ∧ ∀ m ∈ f.nodes, ReflTransGen f.Leads n.id m.id

end

section
variable {x : Ext} {f : Flow}

variable {n : Node} {b : String} {ix : FanIndex}

theorem mem_fanoutsIn {ns : List Node} : n ∈ fanoutsIn ns ↔ n ∈ ns ∧ n.type = .fanout := by
  simp [fanoutsIn]

theorem mem_fanouts : n ∈ f.fanouts ↔ n ∈ f.nodes ∧ n.type = .fanout := mem_fanoutsIn

/-! ## The branches of a fan-out -/

/-- A branch is a task or a child and routes nowhere. -/
def BranchOk (f : Flow) (b : String) : Prop :=
  ∀ bn, f.node b = some bn → (bn.type = .task ∨ bn.type = .subflow) ∧ bn.onFailure = "" ∧ bn.next = "" ∧ bn.dynamic = []

theorem branchProblems_iff {i : Nat} : branchProblems x f n i b = [] ↔ BranchOk f b := by
  unfold branchProblems BranchOk
  cases f.node b with
  | none => simp
  | some bn =>
    simp only [List.append_eq_nil_iff, ite_eq_right_iff, reduceCtorEq, imp_false, Option.some.injEq, forall_eq']
    tauto

theorem fanBranchProblems_iff : ∀ {bs : List String} {m : SMap String} {i : Nat},
    fanBranchProblems x f n m i bs = [] ↔ bs.Nodup ∧ ∀ b ∈ bs, b ∉ m ∧ BranchOk f b
  | [], _, _ => by simp [fanBranchProblems]
  | b :: bs, m, i => by
    unfold fanBranchProblems
    cases hb : m[b]? with
    | some owner =>
      have hmem : b ∈ m := Std.ExtTreeMap.mem_iff_isSome_getElem?.2 (by simp [hb])
      simp [hmem]
    | none =>
      have hmem : b ∉ m := fun h => by simp [Std.ExtTreeMap.mem_iff_isSome_getElem?, hb] at h
      simp only [List.append_eq_nil_iff, branchProblems_iff, fanBranchProblems_iff, List.nodup_cons, List.forall_mem_cons,
        Std.ExtTreeMap.mem_insert, Std.LawfulEqCmp.compare_eq_iff_eq, not_or]
      constructor
      · rintro ⟨hok, hnd, hbs⟩
        exact ⟨⟨fun h => (hbs b h).1.1 rfl, hnd⟩, ⟨hmem, hok⟩, fun c hc => ⟨(hbs c hc).1.2, (hbs c hc).2⟩⟩
      · rintro ⟨⟨hnew, hnd⟩, ⟨-, hok⟩, hbs⟩
        exact ⟨hok, hnd, fun c hc => ⟨⟨fun he => hnew (he ▸ hc), (hbs c hc).1⟩, (hbs c hc).2⟩⟩

theorem mem_claimBranches {fan : String} : ∀ {bs : List String} {m : SMap String},
    b ∈ claimBranches fan m bs ↔ b ∈ m ∨ b ∈ bs
  | [], m => by simp [claimBranches]
  | c :: bs, m => by
    have hstep : claimBranches fan m (c :: bs) = claimBranches fan (if c ∈ m then m else m.insert c fan) bs := rfl
    rw [hstep, mem_claimBranches, List.mem_cons]
    split
    · rename_i hc
      constructor
      · exact fun h => h.imp_right .inr
      · rintro (h | rfl | h)
        · exact .inl h
        · exact .inl hc
        · exact .inr h
    · simp only [Std.ExtTreeMap.mem_insert, Std.LawfulEqCmp.compare_eq_iff_eq]
      constructor
      · rintro ((rfl | h) | h)
        · exact .inr (.inl rfl)
        · exact .inl h
        · exact .inr (.inr h)
      · rintro (h | rfl | h)
        · exact .inl (.inr h)
        · exact .inl (.inl rfl)
        · exact .inr h

/-! ## The pass over the fan-outs -/

theorem fanOf_none_iff {j : String} : ix.fanOf j = none ↔ ∀ a : String, ix.joinOf[a]? ≠ some j := by
  refine ⟨fun h a => FanIndex.fanOf_none h a, fun h => ?_⟩
  cases hf : ix.fanOf j with
  | none => rfl
  | some a => exact absurd (FanIndex.fanOf_some hf) (h a)

/-- What the pass checks of the fan-outs among `ns`, with the index `ix` of the nodes before them. -/
structure FansOk (f : Flow) (ix : FanIndex) (ns : List Node) : Prop where
  once : ((fanoutsIn ns).flatMap Node.branches).Nodup
  branch : ∀ b ∈ (fanoutsIn ns).flatMap Node.branches, b ∉ ix.branchOf ∧ BranchOk f b
  joins : ((fanoutsIn ns).map Node.next).Nodup
  join : ∀ n ∈ fanoutsIn ns, ix.fanOf n.next = none ∧ ∀ j, f.node n.next = some j → j.type = .join

/-- At one fan-out. -/
theorem fanProblems_iff {j : Node} (ht : n.type = .fanout) (hj : f.node n.next = some j) :
    fanProblems x f ix n = [] ↔ n.branches.Nodup ∧ (∀ b ∈ n.branches, b ∉ ix.branchOf ∧ BranchOk f b) ∧ j.type = .join ∧
    ix.fanOf n.next = none := by
  rw [← Flow.node_id hj]
  simp only [fanProblems, if_pos ht, hj, List.append_eq_nil_iff, fanBranchProblems_iff, and_assoc, and_congr_right_iff]
  intro _ _
  by_cases hjt : j.type = .join
  · cases ix.fanOf j.id <;> simp [hjt]
  · simp [hjt]

/-- A fan-out that passes claims its join and its branches. -/
theorem fanStep_fanout {j : Node} (ht : n.type = .fanout) (hj : f.node n.next = some j) (hjt : j.type = .join)
    (hfree : ix.fanOf n.next = none) :
    fanStep f ix n = { branchOf := claimBranches n.id ix.branchOf n.branches, joinOf := ix.joinOf.insert n.id n.next } := by
  have hid : j.id = n.next := Flow.node_id hj
  simp [fanStep, ht, claimJoin, hj, hjt, hid, hfree]

/-- A new claim takes its join and nothing else. -/
theorem fanOf_insert {joins branches : SMap String} {a j k : String} (ha : a ∉ joins) :
    FanIndex.fanOf { branchOf := branches, joinOf := joins.insert a j } k = none ↔
    FanIndex.fanOf { branchOf := branches, joinOf := joins } k = none ∧ k ≠ j := by
  have hnone : joins[a]? = none :=
    Option.not_isSome_iff_eq_none.1 fun h => ha (Std.ExtTreeMap.mem_iff_isSome_getElem?.2 h)
  simp only [fanOf_none_iff, get_insert]
  constructor
  · refine fun h => ⟨fun b => ?_, fun he => ?_⟩
    · by_cases hab : a = b
      · rw [← hab, hnone]
        exact nofun
      · simpa [hab] using h b
    · exact h a (by simp [he])
  · rintro ⟨h, hne⟩ b
    split
    · exact fun he => hne (Option.some.inj he).symm
    · exact h b

theorem FansOk.cons_iff {ns : List Node} (ht : n.type = .fanout) (hfree : ix.fanOf n.next = none)
    (hkey : n.id ∉ ix.joinOf) (hjoin : ∀ j, f.node n.next = some j → j.type = .join) :
    FansOk f ix (n :: ns) ↔ n.branches.Nodup ∧ (∀ b ∈ n.branches, b ∉ ix.branchOf ∧ BranchOk f b) ∧
    FansOk f { branchOf := claimBranches n.id ix.branchOf n.branches, joinOf := ix.joinOf.insert n.id n.next } ns := by
  have hfans : fanoutsIn (n :: ns) = n :: fanoutsIn ns := List.filter_cons_of_pos (by simpa using ht)
  have hfanOf : ∀ k, FanIndex.fanOf { branchOf := claimBranches n.id ix.branchOf n.branches, joinOf := ix.joinOf.insert n.id n.next } k =
      none ↔ ix.fanOf k = none ∧ k ≠ n.next := fun k => fanOf_insert hkey
  constructor
  · rintro ⟨honce, hbranch, hjoins, hall⟩
    rw [hfans, List.flatMap_cons] at honce hbranch
    rw [hfans, List.map_cons, List.nodup_cons] at hjoins
    rw [hfans] at hall
    obtain ⟨hown, hrest, hdisj⟩ := List.nodup_append.1 honce
    refine ⟨hown, fun b hb => hbranch b (List.mem_append_left _ hb), hrest, fun b hb => ?_, hjoins.2, fun m hm => ?_⟩
    · obtain ⟨hnew, hok⟩ := hbranch b (List.mem_append_right _ hb)
      refine ⟨fun hmem => ?_, hok⟩
      rcases mem_claimBranches.1 hmem with h | h
      · exact hnew h
      · exact hdisj b h b hb rfl
    · obtain ⟨hf, hj⟩ := hall m (List.mem_cons_of_mem _ hm)
      exact ⟨(hfanOf _).2 ⟨hf, fun he => hjoins.1 (he ▸ List.mem_map_of_mem hm)⟩, hj⟩
  · rintro ⟨hown, hbr, honce, hbranch, hjoins, hall⟩
    constructor
    · rw [hfans, List.flatMap_cons]
      refine List.nodup_append.2 ⟨hown, honce, fun b hb c hc he => ?_⟩
      exact (hbranch c hc).1 (mem_claimBranches.2 (.inr (he ▸ hb)))
    · rw [hfans, List.flatMap_cons]
      intro b hb
      rcases List.mem_append.1 hb with hb | hb
      · exact hbr b hb
      · exact ⟨fun h => (hbranch b hb).1 (mem_claimBranches.2 (.inl h)), (hbranch b hb).2⟩
    · rw [hfans, List.map_cons, List.nodup_cons]
      refine ⟨fun hmem => ?_, hjoins⟩
      obtain ⟨m, hm, he⟩ := List.mem_map.1 hmem
      exact ((hfanOf _).1 (hall m hm).1).2 he
    · rw [hfans]
      intro m hm
      rcases List.mem_cons.1 hm with rfl | hm
      · exact ⟨hfree, hjoin⟩
      · exact ⟨((hfanOf _).1 (hall m hm).1).1, (hall m hm).2⟩

/-- **The pass finds nothing exactly when the fan-outs are as they should be.** -/
theorem fansProblems_iff : ∀ {ns : List Node} {ix : FanIndex}, (∀ n ∈ ns, n.type = .fanout → ∃ t, f.node n.next = some t) →
    (ns.map Node.id).Nodup → (∀ n ∈ ns, n.id ∉ ix.joinOf) → (fansProblems x f ix ns = [] ↔ FansOk f ix ns)
  | [], ix, _, _, _ => by
    simp only [fansProblems, true_iff]
    exact ⟨by simp [fanoutsIn], by simp [fanoutsIn], by simp [fanoutsIn], by simp [fanoutsIn]⟩
  | n :: ns, ix, hnext, hids, hkeys => by
    rw [List.map_cons, List.nodup_cons] at hids
    have hnext' : ∀ m ∈ ns, m.type = .fanout → ∃ t, f.node m.next = some t := fun m hm => hnext m (List.mem_cons_of_mem _ hm)
    have hkeys' : ∀ m ∈ ns, m.id ∉ ix.joinOf := fun m hm => hkeys m (List.mem_cons_of_mem _ hm)
    rw [fansProblems, List.append_eq_nil_iff]
    by_cases ht : n.type = .fanout
    · obtain ⟨j, hj⟩ := hnext n List.mem_cons_self ht
      have hkey := hkeys n List.mem_cons_self
      have hjoin : j.type = .join → ∀ j', f.node n.next = some j' → j'.type = .join := fun hjt j' hj' => by
        rw [Option.some.inj (hj'.symm.trans hj)]
        exact hjt
      -- the other nodes start from the index with the claims of `n`
      have hstep : ∀ (hjt : j.type = .join) (hfree : ix.fanOf n.next = none),
          fansProblems x f (fanStep f ix n) ns = [] ↔
            FansOk f { branchOf := claimBranches n.id ix.branchOf n.branches, joinOf := ix.joinOf.insert n.id n.next } ns := by
        intro hjt hfree
        rw [fanStep_fanout ht hj hjt hfree]
        refine fansProblems_iff hnext' hids.2 fun m hm hmem => ?_
        rcases Std.ExtTreeMap.mem_insert.1 hmem with he | hmem
        · exact hids.1 (List.mem_map.2 ⟨m, hm, (Std.LawfulEqCmp.compare_eq_iff_eq.1 he).symm⟩)
        · exact hkeys' m hm hmem
      rw [fanProblems_iff ht hj]
      constructor
      · rintro ⟨⟨hnd, hbr, hjt, hfree⟩, hrest⟩
        exact (FansOk.cons_iff ht hfree hkey (hjoin hjt)).2 ⟨hnd, hbr, (hstep hjt hfree).1 hrest⟩
      · intro hok
        obtain ⟨hfree, hjt⟩ := hok.join n (mem_fanoutsIn.2 ⟨List.mem_cons_self, ht⟩)
        obtain ⟨hnd, hbr, hrest⟩ := (FansOk.cons_iff ht hfree hkey hjt).1 hok
        exact ⟨⟨hnd, hbr, hjt j hj, hfree⟩, (hstep (hjt j hj) hfree).2 hrest⟩
    · have hsame : fanStep f ix n = ix := if_neg ht
      have hfans : fanoutsIn (n :: ns) = fanoutsIn ns := List.filter_cons_of_neg (by simpa using ht)
      rw [fanProblems, if_neg ht, hsame, fansProblems_iff hnext' hids.2 hkeys']
      simp only [true_and]
      constructor
      · rintro ⟨h1, h2, h3, h4⟩
        exact ⟨by rwa [hfans], by rwa [hfans], by rwa [hfans], by rwa [hfans]⟩
      · rintro ⟨h1, h2, h3, h4⟩
        rw [hfans] at h1 h2 h3 h4
        exact ⟨h1, h2, h3, h4⟩

theorem mem_branchOf : ∀ {ns : List Node} {ix : FanIndex},
    b ∈ (ns.foldl (fanStep f) ix).branchOf ↔ b ∈ ix.branchOf ∨ b ∈ (fanoutsIn ns).flatMap Node.branches
  | [], ix => by simp [fanoutsIn]
  | n :: ns, ix => by
    rw [List.foldl_cons, mem_branchOf]
    by_cases ht : n.type = .fanout
    · have hfans : fanoutsIn (n :: ns) = n :: fanoutsIn ns := List.filter_cons_of_pos (by simpa using ht)
      rw [hfans, List.flatMap_cons, List.mem_append, fanStep, if_pos ht, mem_claimBranches, or_assoc]
    · have hfans : fanoutsIn (n :: ns) = fanoutsIn ns := List.filter_cons_of_neg (by simpa using ht)
      rw [hfans, fanStep, if_neg ht]

theorem mem_fanIndex : b ∈ f.fanIndex.branchOf ↔ b ∈ f.allBranches :=
  mem_branchOf.trans (by simp [Flow.allBranches, Flow.fanouts])

/-- What is checked before the graph. -/
structure Local (x : Ext) (f : Flow) : Prop where
  ids : (f.nodes.map Node.id).Nodup
  id_ne : ∀ n ∈ f.nodes, n.id ≠ ""
  node : ∀ n ∈ f.nodes, nodeProblems x f n = []

theorem local_of_problems (h : localProblems x f = []) : Local x f := by
  simp only [localProblems, List.append_eq_nil_iff, List.flatMap_eq_nil_iff] at h
  obtain ⟨⟨⟨-, hidx⟩, -⟩, hnode⟩ := h
  obtain ⟨hids, hmem⟩ := indexProblems_nil hidx
  exact ⟨hids, fun n hn => (hmem n hn).1, hnode⟩

namespace Local

variable (h : Local x f)
include h

variable {n : Node}

theorem next_resolves (hn : n ∈ f.fanouts) : ∃ t, f.node n.next = some t := by
  obtain ⟨hn, ht⟩ := mem_fanouts.1 hn
  obtain ⟨-, hty, hnx, -⟩ := nodeProblems_nil (h.node n hn)
  simp only [typeProblems, ht, fanoutProblems, List.append_eq_nil_iff, problemIf_nil, decide_eq_false_iff_not] at hty
  exact refProblems_nil (hnx hty.2)

theorem branch_resolves (hn : n ∈ f.fanouts) {b : String} (hb : b ∈ n.branches) : ∃ t, f.node b = some t := by
  obtain ⟨hn, ht⟩ := mem_fanouts.1 hn
  obtain ⟨-, hty, -, -⟩ := nodeProblems_nil (h.node n hn)
  simp only [typeProblems, ht, fanoutProblems, List.append_eq_nil_iff, List.flatMap_eq_nil_iff] at hty
  obtain ⟨i, hi, hbi⟩ := List.getElem_of_mem hb
  exact refProblems_nil (hty.1.2 (b, i) (List.mem_zipIdx_iff_getElem?.2 (by simp [hi, hbi])))

theorem eq_of_id {m : Node} (hm : m ∈ f.nodes) (hn : n ∈ f.nodes) (he : m.id = n.id) : m = n :=
  Option.some.inj ((Flow.node_of_mem h.ids hm).symm.trans (he ▸ Flow.node_of_mem h.ids hn))

/-- Only a fan-out has branches. -/
theorem branches_fanout (hn : n ∈ f.nodes) (hb : n.branches ≠ []) : n.type = .fanout := by
  obtain ⟨allowed, ha, hm⟩ := allowed_of_set (h.node n hn) "branches" (by simp [fieldSet, hb])
  cases ht : n.type <;> simp_all [allowedFields] <;> subst ha <;> simp at hm

theorem successor_resolves (hn : n ∈ f.nodes) {b : String} (hb : b ∈ successors n) : ∃ t, f.node b = some t := by
  rcases List.mem_append.1 hb with hb | hb
  · obtain ⟨r, hr, rfl⟩ := List.mem_map.1 hb
    exact route_resolves (h.node n hn) hr
  · exact h.branch_resolves (mem_fanouts.2 ⟨hn, h.branches_fanout hn (List.ne_nil_of_mem hb)⟩) hb

/-! ## The index of fan-outs without a problem -/

theorem fansOk_iff : fansProblems x f {} f.nodes = [] ↔ FansOk f {} f.nodes :=
  fansProblems_iff (fun n hn ht => h.next_resolves (mem_fanouts.2 ⟨hn, ht⟩)) h.ids (fun n _ hmem => by simp at hmem)

theorem good (hf : fansProblems x f {} f.nodes = []) : f.fanIndex.Good f f.nodes := by
  have hgood : f.fanIndex.Good f ([] ++ f.nodes) := by
    refine fansProblems_nil ⟨fun {a j} ha => ?_, fun {a b j} ha => ?_, fun hm => ?_⟩ (by simpa using h.ids)
      (fun n hn ht => h.next_resolves (mem_fanouts.2 ⟨hn, ht⟩)) hf
    · simp at ha
    · simp at ha
    · cases hm
  simpa using hgood

variable (hg : f.fanIndex.Good f f.nodes)

include hg

theorem joinOf_iff (hn : n ∈ f.nodes) {j : String} :
    f.joinOf n.id = some j ↔ n.type = .fanout ∧ n.next = j := by
  constructor
  · intro hj
    obtain ⟨m, hm, hmt, hid, hnext⟩ := hg.join hj
    rw [← h.eq_of_id hm hn hid]
    exact ⟨hmt, hnext⟩
  · rintro ⟨ht, rfl⟩
    obtain ⟨-, -, jn, hjn, -, hjo⟩ := hg.fan hn ht
    rw [Flow.node_id hjn] at hjo
    exact hjo

theorem fanOf_iff {fan : Node} (hfan : fan ∈ f.nodes) {j : String} :
    f.fanIndex.fanOf j = some fan.id ↔ fan.type = .fanout ∧ fan.next = j := by
  rw [← h.joinOf_iff hg hfan]
  refine ⟨FanIndex.fanOf_some, fun hj => ?_⟩
  cases ho : f.fanIndex.fanOf j with
  | none => exact absurd hj (FanIndex.fanOf_none ho fan.id)
  | some a => rw [hg.inj (FanIndex.fanOf_some ho) hj]

theorem waitFor_eq {fan j : Node} (hfan : fan ∈ f.fanouts) (hj : j ∈ f.nodes)
    (hnext : fan.next = j.id) : f.waitFor j.id = awaited fan j := by
  obtain ⟨hmem, ht⟩ := mem_fanouts.1 hfan
  unfold Flow.waitFor awaited
  simp only [Flow.node_of_mem h.ids hj, (h.fanOf_iff hg hmem).2 ⟨ht, hnext⟩, Flow.node_of_mem h.ids hmem]

theorem joinProblems_iff {j : Node} (hj : j ∈ f.nodes) (ht : j.type = .join) :
    joinProblems x f f.fanIndex j = [] ↔ ∃ fan ∈ f.fanouts, fan.next = j.id ∧ (∀ w ∈ j.waitFor, w ∈ fan.branches) ∧
    ∀ q, j.joinKind = .quorum q ∨ j.joinKind = .min q → q ≤ (awaited fan j).length := by
  unfold joinProblems
  rw [if_pos ht]
  cases hf : f.fanIndex.fanOf j.id with
  | none =>
    simp only [List.cons_ne_self, false_iff]
    rintro ⟨fan, hfan, hnext, -⟩
    obtain ⟨hmem, hfant⟩ := mem_fanouts.1 hfan
    rw [(h.fanOf_iff hg hmem).2 ⟨hfant, hnext⟩] at hf
    cases hf
  | some a =>
    obtain ⟨fan, hmem, hfant, rfl, hnext⟩ := hg.join (FanIndex.fanOf_some hf)
    have hfan := mem_fanouts.2 ⟨hmem, hfant⟩
    have hwaits : (∀ wi ∈ j.waitFor.zipIdx, wi.1 ∈ fan.branches) ↔ ∀ w ∈ j.waitFor, w ∈ fan.branches := by
      conv_rhs => rw [← List.zipIdx_map_fst 0 j.waitFor]
      simp only [List.forall_mem_map]
    have hone : (∃ fan' ∈ f.fanouts, fan'.next = j.id ∧ (∀ w ∈ j.waitFor, w ∈ fan'.branches) ∧
        ∀ q, j.joinKind = .quorum q ∨ j.joinKind = .min q → q ≤ (awaited fan' j).length) ↔
        (∀ w ∈ j.waitFor, w ∈ fan.branches) ∧ ∀ q, j.joinKind = .quorum q ∨ j.joinKind = .min q → q ≤ (awaited fan j).length := by
      refine ⟨fun ⟨fan', hfan', hnext', hrest⟩ => ?_, fun hrest => ⟨fan, hfan, hnext, hrest⟩⟩
      obtain ⟨hmem', ht'⟩ := mem_fanouts.1 hfan'
      have hid := (h.fanOf_iff hg hmem').2 ⟨ht', hnext'⟩
      rw [hf, Option.some.injEq] at hid
      rw [h.eq_of_id hmem hmem' hid]
      exact hrest
    rw [hone, ← hwaits]
    simp only [Flow.node_of_mem h.ids hmem, h.waitFor_eq hg hfan hj hnext, List.append_eq_nil_iff, List.map_eq_nil_iff,
      List.filter_eq_nil_iff, Bool.not_eq_true', Bool.not_eq_false, List.contains_iff_mem]
    refine and_congr_right fun _ => ?_
    cases j.joinKind <;> simp

theorem routeProblems_iff (hn : n ∈ f.nodes) {r : Route} :
    routeProblems x f n r = [] ↔ r.target ∉ f.allBranches ∧
    ∀ t, f.node r.target = some t → t.type = .join → n.type = .fanout ∧ n.next = r.target := by
  unfold routeProblems
  rw [← mem_fanIndex, Std.ExtTreeMap.mem_iff_isSome_getElem?]
  cases f.fanIndex.branchOf[r.target]? with
  | some owner => simp
  | none =>
    cases f.node r.target with
    | none => simp
    | some t =>
      simp only [← h.joinOf_iff hg hn, Option.isSome_none, Bool.false_eq_true, not_false_eq_true, Option.some.injEq, forall_eq', true_and,
        ite_eq_right_iff, reduceCtorEq, imp_false, not_and, not_not]

omit hg

/-! ## The start -/

theorem nodup : f.nodes.Nodup := h.ids.of_map _

theorem sources_iff {id : String} :
    sources f = [id] ↔ ∃ n ∈ f.nodes, n.id = id ∧ ∀ m ∈ f.nodes, (∀ a ∈ f.nodes, m.id ∉ successors a) ↔ m = n := by
  have htarget : ∀ {k : String}, (!isTarget f k) = true ↔ ∀ a ∈ f.nodes, k ∉ successors a := by
    intro k
    simp [isTarget]
  simp only [← htarget]
  unfold sources
  constructor
  · intro hs
    obtain ⟨n, hl, rfl⟩ := List.map_eq_singleton_iff.1 hs
    have hmem : ∀ m, m ∈ f.nodes.filter (fun m => !isTarget f m.id) ↔ m = n := fun m => by rw [hl, List.mem_singleton]
    have hn := List.mem_filter.1 ((hmem n).2 rfl)
    exact ⟨n, hn.1, rfl, fun m hm => ⟨fun ht => (hmem m).1 (List.mem_filter.2 ⟨hm, ht⟩), fun he => he ▸ hn.2⟩⟩
  · rintro ⟨n, hn, rfl, hone⟩
    have hl : f.nodes.filter (fun m => !isTarget f m.id) = [n] := by
      rw [← List.perm_singleton, List.perm_ext_iff_of_nodup (h.nodup.filter _) (List.nodup_singleton n)]
      intro m
      rw [List.mem_filter, List.mem_singleton]
      exact ⟨fun hm => (hone m hm.1).1 hm.2, fun he => he ▸ ⟨hn, (hone n hn).2 rfl⟩⟩
    rw [hl]
    rfl

theorem startNode_iff {id : String} : f.startNode = some id ↔ ∃ n ∈ f.nodes, n.id = id ∧ f.StartsAt n := by
  unfold Flow.startNode Flow.StartsAt
  by_cases hs : f.start ≠ ""
  · simp only [if_pos hs]
    constructor
    · intro hstart
      cases hn : f.node f.start with
      | none => rw [hn] at hstart; cases hstart
      | some n =>
        simp only [hn] at hstart
        split at hstart
        · cases hstart
        · rename_i hnot
          rw [not_or, ← Std.ExtTreeMap.mem_iff_isSome_getElem?, mem_fanIndex] at hnot
          exact ⟨n, Flow.node_mem hn, Option.some.inj hstart, Flow.node_id hn, hnot.2, hnot.1⟩
    · rintro ⟨n, hn, rfl, hid, hjoin, hbranch⟩
      have hnode : f.node f.start = some n := hid ▸ Flow.node_of_mem h.ids hn
      rw [← mem_fanIndex, Std.ExtTreeMap.mem_iff_isSome_getElem?] at hbranch
      simp [hnode, hbranch, hjoin]
  · simp only [if_neg hs, ← h.sources_iff]
    rcases sources f with _ | ⟨a, _ | ⟨b, l⟩⟩ <;> simp

end Local

theorem startProblems_iff : startProblems x f = [] ↔ ∃ id, f.startNode = some id := by
  unfold startProblems Flow.startNode
  by_cases hs : f.start ≠ ""
  · rw [if_pos hs, if_pos hs]
    cases f.node f.start with
    | none => simp
    | some n => simp
  · rw [if_neg hs, if_neg hs]
    rcases sources f with _ | ⟨a, _ | ⟨b, l⟩⟩ <;> simp

/-! ## What can be reached -/

def Flow.succ (f : Flow) (id : String) : List String :=
  match f.node id with
  | some n => successors n
  | none => []

theorem mem_succ {a : String} : b ∈ f.succ a ↔ f.Leads a b := by
  unfold Flow.succ Flow.Leads
  cases f.node a <;> simp

theorem pushNew_eq : ∀ (seen stack ss : List String), pushNew seen stack ss = Search.push seen stack ss
  | _, _, [] => rfl
  | seen, stack, s :: ss => by
    rw [pushNew, Search.push, pushNew_eq, pushNew_eq]

theorem reach_eq : ∀ (fuel : Nat) (seen stack : List String), reach f fuel seen stack = Search.run f.succ fuel seen stack
  | 0, _, _ => rfl
  | _ + 1, _, [] => rfl
  | fuel + 1, seen, id :: stack => by
    rw [reach, Search.run, ← pushNew_eq, ← reach_eq]
    rfl

theorem Local.unreachable_iff (h : Local x f) (hn : n ∈ f.nodes) :
    unreachableProblems x f n.id = [] ↔ ∀ m ∈ f.nodes, ReflTransGen f.Leads n.id m.id := by
  have hU : ∀ a ∈ f.nodes.map Node.id, ∀ b ∈ f.succ a, b ∈ f.nodes.map Node.id := by
    intro a _ b hb
    obtain ⟨m, hm, hs⟩ := mem_succ.1 hb
    obtain ⟨t, ht⟩ := h.successor_resolves (Flow.node_mem hm) hs
    exact List.mem_map.2 ⟨t, Flow.node_mem ht, Flow.node_id ht⟩
  have hleads : Search.Step f.succ = f.Leads := by
    ext a b
    exact mem_succ
  have hreach : ∀ k, k ∈ reach f (f.nodes.length + 1) [n.id] [n.id] ↔ ReflTransGen f.Leads n.id k := by
    intro k
    rw [reach_eq, ← hleads]
    exact Search.mem_run_iff hU (List.mem_map_of_mem hn) (by simp) k
  simp only [unreachableProblems, List.map_eq_nil_iff, List.filter_eq_nil_iff, Bool.not_eq_true', Bool.not_eq_false,
    List.contains_iff_mem, hreach]

/-! ## The whole graph -/

/-- A task or a child has no routes but its next, its failure and its dynamic ones. -/
theorem routes_nil_iff (hp : nodeProblems x f n = []) (ht : n.type = .task ∨ n.type = .subflow) :
    routes n = [] ↔ n.onFailure = "" ∧ n.next = "" ∧ n.dynamic = [] := by
  have hrules : n.rules = [] := by
    by_contra hne
    have := type_of_rules hp hne
    rcases ht with ht | ht <;> rw [ht] at this <;> cases this
  have htimeout : n.onTimeout = "" := by
    by_contra hne
    have := type_of_onTimeout hp hne
    rcases ht with ht | ht <;> rw [ht] at this <;> cases this
  simp only [routes, hrules, htimeout, List.append_eq_nil_iff, List.zipIdx_nil, List.filter_nil, List.map_nil, ne_eq,
    not_true_eq_false, if_false, and_true, List.map_eq_nil_iff, List.zipIdx_eq_nil_iff, ite_eq_right_iff, List.cons_ne_nil, imp_false, not_not]
  tauto

theorem Local.branchOk_iff (h : Local x f) :
    BranchOk f b ↔ ∀ bn, f.node b = some bn → (bn.type = .task ∨ bn.type = .subflow) ∧ routes bn = [] := by
  refine forall₂_congr fun bn hbn => and_congr_right fun ht => ?_
  exact (routes_nil_iff (h.node bn (Flow.node_mem hbn)) ht).symm

/-- The fan-outs of a well formed graph pass. -/
theorem Shaped.fansOk (h : Local x f) (hs : Shaped f) : FansOk f {} f.nodes := by
  refine ⟨hs.once, fun b hb => ⟨by simp, h.branchOk_iff.2 (hs.branch b hb)⟩, ?_, fun n hn => ⟨?_, fun j hj => ?_⟩⟩
  · refine List.Nodup.map_on (fun m hm n hn he => ?_) (h.nodup.filter _)
    obtain ⟨j, hj, hjt, hnext⟩ := hs.closed m hm
    exact (hs.closes j hj hjt).unique ⟨hm, hnext⟩ ⟨hn, he ▸ hnext⟩
  · exact fanOf_none_iff.2 fun a => by simp
  · obtain ⟨j', hj', hjt, hnext⟩ := hs.closed n hn
    rw [hnext, Flow.node_of_mem h.ids hj'] at hj
    rw [← Option.some.inj hj]
    exact hjt

theorem graphProblems_iff (h : Local x f) : graphProblems x f = [] ↔ Shaped f := by
  simp only [graphProblems, branchEntryProblems, List.append_eq_nil_iff, List.flatMap_eq_nil_iff]
  constructor
  · rintro ⟨⟨⟨⟨hfans, hjoins⟩, hroutes⟩, hstart⟩, hreach⟩
    have hg := h.good hfans
    have hok := h.fansOk_iff.1 hfans
    -- a join has one fan-out, and the checks made with it are made with every one
    have hjoin : ∀ j ∈ f.nodes, j.type = .join → ∀ fan ∈ f.fanouts, fan.next = j.id → (∀ w ∈ j.waitFor, w ∈ fan.branches) ∧
        ∀ q, j.joinKind = .quorum q ∨ j.joinKind = .min q → q ≤ (awaited fan j).length := by
      intro j hj hjt fan hfan hnext
      obtain ⟨fan', hfan', hnext', hrest⟩ := (h.joinProblems_iff hg hj hjt).1 (hjoins j hj)
      rwa [List.inj_on_of_nodup_map hok.joins hfan hfan' (hnext.trans hnext'.symm)]
    refine
      { closed := fun fan hfan => ?_
        closes := fun j hj hjt => ?_
        once := hok.once
        branch := fun b hb => h.branchOk_iff.1 (hok.branch b hb).2
        route := fun n hn r hr => (h.routeProblems_iff hg hn).1 (hroutes n hn r hr)
        waits := fun fan hfan j hj hjt hnext => (hjoin j hj hjt fan hfan hnext).1
        count := fun fan hfan j hj hjt hnext => (hjoin j hj hjt fan hfan hnext).2
        reached := ?_ }
    · obtain ⟨t, ht⟩ := h.next_resolves hfan
      exact ⟨t, Flow.node_mem ht, (hok.join fan hfan).2 t ht, (Flow.node_id ht).symm⟩
    · obtain ⟨fan, hfan, hnext, -⟩ := (h.joinProblems_iff hg hj hjt).1 (hjoins j hj)
      exact ⟨fan, ⟨hfan, hnext⟩, fun m hm => List.inj_on_of_nodup_map hok.joins hm.1 hfan (hm.2.trans hnext.symm)⟩
    · obtain ⟨id, hid⟩ := startProblems_iff.1 hstart
      obtain ⟨n, hn, rfl, hat⟩ := h.startNode_iff.1 hid
      rw [hid] at hreach
      exact ⟨n, hn, hat, (h.unreachable_iff hn).1 hreach⟩
  · intro hs
    have hok := hs.fansOk h
    have hfans := h.fansOk_iff.2 hok
    have hg := h.good hfans
    obtain ⟨n, hn, hat, hreach⟩ := hs.reached
    have hid := h.startNode_iff.2 ⟨n, hn, rfl, hat⟩
    refine ⟨⟨⟨⟨hfans, fun j hj => ?_⟩, fun m hm r hr => (h.routeProblems_iff hg hm).2 (hs.route m hm r hr)⟩,
      startProblems_iff.2 ⟨_, hid⟩⟩, ?_⟩
    · by_cases hjt : j.type = .join
      · obtain ⟨fan, ⟨hfan, hnext⟩, -⟩ := hs.closes j hj hjt
        exact (h.joinProblems_iff hg hj hjt).2
          ⟨fan, hfan, hnext, hs.waits fan hfan j hj hjt hnext, hs.count fan hfan j hj hjt hnext⟩
      · exact if_neg hjt
    · rw [hid]
      exact (h.unreachable_iff hn).2 hreach

theorem shaped_of_validate (hv : validate x f = []) : Shaped f := by
  have hl := local_of_validate hv
  have hne : f.nodes ≠ [] := fun hempty => by simp [validate, hempty] at hv
  rw [validate, if_neg (by simpa using hne), if_neg (by simpa using hl)] at hv
  exact (graphProblems_iff (local_of_problems hl)).1 hv

theorem Shaped.validate (hl : localProblems x f = []) (hs : Shaped f) : Packtrail.validate x f = [] := by
  obtain ⟨n, hn, -⟩ := hs.reached
  rw [Packtrail.validate, if_neg (by simpa using List.ne_nil_of_mem hn), if_neg (by simpa using hl)]
  exact (graphProblems_iff (local_of_problems hl)).2 hs

/-- **The accepted graphs are the well formed ones.** -/
theorem validate_shaped (hl : localProblems x f = []) : validate x f = [] ↔ Shaped f :=
  ⟨shaped_of_validate, Shaped.validate hl⟩

end

/-- Two reviews side by side, one of which is enough. -/
def sidesReview : Flow :=
  { oneTask with nodes := [
    { id := "split", type := .fanout, branches := ["near", "far"], next := "merge" },
    { id := "near", type := .task, kind := "write" }, { id := "far", type := .task, kind := "write" },
    { id := "merge", type := .join, policy := "quorum:1" }] }

theorem sidesReview_shaped : localProblems plainExt sidesReview = [] ∧ Shaped sidesReview :=
  ⟨by decide +kernel, (validate_shaped (by decide +kernel)).1 (by decide +kernel : validate plainExt sidesReview = [])⟩

end Packtrail
