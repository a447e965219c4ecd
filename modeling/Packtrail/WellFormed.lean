import Packtrail.Validate

/-
# What an accepted flow guarantees

`WellFormed` lists the facts about a flow that its execution relies on: ids are not empty, every route
leads to a node that can be entered, a choice has a default, a fan-out has branches that can be
started and a join that waits for some of them. **`wellFormed_of_validate`** derives all of them from
an empty list of problems.
-/

namespace Packtrail

/-- Everything but a join; `unknown` types are refused by `Validate`. -/
def NodeType.enterable : NodeType → Bool
  | .join | .unknown _ => false
  | _ => true

def Enterable (f : Flow) (id : String) : Prop := ∃ n, f.node id = some n ∧ n.type.enterable = true

structure FanOk (f : Flow) (n : Node) : Prop where
  nonempty : n.branches ≠ []
  nodup : n.branches.Nodup
  branch : ∀ b ∈ n.branches, ∃ bn, f.node b = some bn ∧ (bn.type = .task ∨ bn.type = .subflow)
  join : ∃ jn, f.joinOf n.id = some jn.id ∧ f.node jn.id = some jn ∧ jn.type = .join ∧ f.waitFor jn.id ≠ [] ∧
    ∀ w ∈ f.waitFor jn.id, w ∈ n.branches

structure WellFormed (f : Flow) : Prop where
  id_ne : ∀ {id n}, f.node id = some n → id ≠ ""
  next : ∀ {id n}, f.node id = some n → n.type ≠ .fanout → n.next ≠ "" → Enterable f n.next
  onFailure : ∀ {id n}, f.node id = some n → n.onFailure ≠ "" → Enterable f n.onFailure
  onTimeout : ∀ {id n}, f.node id = some n → n.onTimeout ≠ "" → Enterable f n.onTimeout
  dynamic : ∀ {id n d}, f.node id = some n → d ∈ n.dynamic → Enterable f d
  rule : ∀ {id n r}, f.node id = some n → r ∈ n.rules → r.toNode ≠ endTarget → Enterable f r.toNode
  default : ∀ {id n}, f.node id = some n → n.type = .choice → ∃ r ∈ n.rules, r.default = true
  fan : ∀ {id n}, f.node id = some n → n.type = .fanout → FanOk f n
  start : Enterable f (f.startNode.getD "")

variable {n : Node}

theorem Flow.node_id {f : Flow} {id : String} (h : f.node id = some n) : n.id = id := by
  simpa using List.find?_some h

theorem Flow.node_mem {f : Flow} {id : String} (h : f.node id = some n) : n ∈ f.nodes :=
  List.mem_of_find?_eq_some h

theorem Flow.node_of_mem {f : Flow} (hd : (f.nodes.map Node.id).Nodup) (h : n ∈ f.nodes) :
    f.node n.id = some n := by
  unfold Flow.node
  induction hns : f.nodes generalizing f with
  | nil => rw [hns] at h; cases h
  | cons m ms ih =>
    rw [hns] at h hd
    simp only [List.map_cons, List.nodup_cons] at hd
    rcases List.mem_cons.1 h with rfl | hm
    · simp
    · have hne : m.id ≠ n.id := fun e => hd.1 (e ▸ List.mem_map_of_mem hm)
      rw [List.find?_cons_of_neg (by simpa using hne)]
      exact ih (f := { f with nodes := ms }) hd.2 hm rfl

@[simp] theorem problemIf_nil {b : Bool} {node field msg : String} : problemIf b node field msg = [] ↔ b = false := by
  unfold problemIf
  cases b <;> simp

@[simp] theorem causeProblem_nil {node field : String} {e : Option String} :
    causeProblem node field e = [] ↔ e = none := by
  cases e <;> simp [causeProblem]

/-! ## Node by node -/

section
variable {x : Ext} {f : Flow}

variable {n : Node} {ix : FanIndex}

theorem refProblems_nil {field id : String} (h : refProblems x f n field id = []) :
    ∃ t, f.node id = some t := by
  unfold refProblems at h
  split at h
  · cases h
  · split at h
    · cases h
    · rename_i hn
      exact Option.ne_none_iff_exists'.1 (by simpa using hn)

theorem checkToken_ne {what s : String} (h : checkToken x.quote what s = none) : s ≠ "" := by
  rintro rfl
  unfold checkToken validToken at h
  simp at h

theorem indexProblems_nil : ∀ {seen : List String} {ns : List Node}, indexProblems x seen ns = [] →
    (ns.map Node.id).Nodup ∧ ∀ n ∈ ns, n.id ≠ "" ∧ n.id ∉ seen
  | _, [], _ => ⟨List.nodup_nil, by simp⟩
  | seen, n :: ns, h => by
    simp only [indexProblems, List.append_eq_nil_iff, causeProblem_nil] at h
    obtain ⟨ht, h⟩ := h
    split at h
    · cases h
    · rename_i hn
      obtain ⟨hd, hm⟩ := indexProblems_nil h
      refine ⟨?_, ?_⟩
      · rw [List.map_cons, List.nodup_cons]
        refine ⟨fun hmem => ?_, hd⟩
        obtain ⟨m, hms, he⟩ := List.mem_map.1 hmem
        exact (hm m hms).2 (by simp [he])
      · intro m hms
        rcases List.mem_cons.1 hms with rfl | hms
        · exact ⟨checkToken_ne ht, by simpa using hn⟩
        · exact ⟨(hm m hms).1, fun hs => (hm m hms).2 (List.mem_cons_of_mem _ hs)⟩

/-- A field that is set belongs to the node's type. -/
theorem foreignProblems_nil {allowed : List String} (h : foreignProblems n = [])
    (ha : allowedFields n.type = some allowed) {field : String} (hf : (field, true) ∈ fieldSet n) :
    field ∈ allowed := by
  simp only [foreignProblems, problemIf_nil, foreignFields, ha, Bool.not_eq_false', List.isEmpty_iff,
    List.map_eq_nil_iff, List.filter_eq_nil_iff] at h
  simpa using h _ hf

/-- `nodeProblems` part by part. -/
theorem nodeProblems_nil (h : nodeProblems x f n = []) :
    foreignProblems n = [] ∧ typeProblems x f n = [] ∧ (n.next ≠ "" → refProblems x f n "next" n.next = []) ∧
    (n.onFailure ≠ "" → refProblems x f n "on_failure" n.onFailure = []) := by
  simp only [nodeProblems, List.append_eq_nil_iff] at h
  obtain ⟨⟨⟨⟨hf, -⟩, ht⟩, hn⟩, ho⟩ := h
  refine ⟨hf, ht, fun hne => ?_, fun hne => ?_⟩
  · rw [if_neg hne, List.append_eq_nil_iff] at hn; exact hn.1
  · rw [if_neg hne, List.append_eq_nil_iff] at ho; exact ho.1

theorem allowed_of_set (h : nodeProblems x f n = []) (field : String) (hf : (field, true) ∈ fieldSet n) :
    ∃ allowed, allowedFields n.type = some allowed ∧ field ∈ allowed := by
  obtain ⟨hfor, ht, -, -⟩ := nodeProblems_nil h
  cases ha : allowedFields n.type with
  | some allowed => exact ⟨allowed, rfl, foreignProblems_nil hfor ha hf⟩
  | none =>
    -- only an unknown type has no table, and that is a problem of its own
    unfold typeProblems at ht
    split at ht <;> simp_all [allowedFields]

theorem type_of_dynamic (h : nodeProblems x f n = []) (hd : n.dynamic ≠ []) : n.type = .task := by
  obtain ⟨allowed, ha, hm⟩ := allowed_of_set h "dynamic" (by simp [fieldSet, hd])
  cases ht : n.type <;> simp_all [allowedFields] <;> subst ha <;> simp at hm

theorem type_of_rules (h : nodeProblems x f n = []) (hd : n.rules ≠ []) : n.type = .choice := by
  obtain ⟨allowed, ha, hm⟩ := allowed_of_set h "rules" (by simp [fieldSet, hd])
  cases ht : n.type <;> simp_all [allowedFields] <;> subst ha <;> simp at hm

theorem type_of_onTimeout (h : nodeProblems x f n = []) (hd : n.onTimeout ≠ "") : n.type = .await := by
  obtain ⟨allowed, ha, hm⟩ := allowed_of_set h "on_timeout" (by simp [fieldSet, hd])
  cases ht : n.type <;> simp_all [allowedFields] <;> subst ha <;> simp at hm

theorem fanout_of_onFailure (h : nodeProblems x f n = []) (hd : n.onFailure ≠ "") : n.type ≠ .fanout := by
  intro ht
  obtain ⟨allowed, ha, hm⟩ := allowed_of_set h "on_failure" (by simp [fieldSet, hd])
  rw [ht] at ha
  simp only [allowedFields, Option.some.injEq] at ha
  subst ha
  simp at hm

/-- Every rule of a choice leads to a node or to the end. -/
theorem rulesProblems_nil : ∀ {rs : List Rule} {i : Nat} {named : List String},
    rulesProblems x f n i named rs = [] → ∀ r ∈ rs, r.toNode ≠ endTarget → ∃ t, f.node r.toNode = some t
  | [], _, _, _, _, hr, _ => by cases hr
  | r :: rs, i, named, h, r', hr, hne => by
    simp only [rulesProblems, ruleProblems, List.append_eq_nil_iff] at h
    rcases List.mem_cons.1 hr with rfl | hr
    · obtain ⟨⟨-, hto⟩, -⟩ := h
      rw [if_neg hne] at hto
      exact refProblems_nil hto
    · exact rulesProblems_nil h.2 r' hr hne

/-- Every route of a valid node names a node. -/
theorem route_resolves (h : nodeProblems x f n = []) {r : Route} (hr : r ∈ routes n) :
    ∃ t, f.node r.target = some t := by
  obtain ⟨-, ht, hn, ho⟩ := nodeProblems_nil h
  simp only [routes, List.mem_append] at hr
  rcases hr with (((hr | hr) | hr) | hr) | hr
  · split at hr
    · rename_i hne
      cases List.mem_singleton.1 hr
      exact refProblems_nil (hn hne)
    · cases hr
  · obtain ⟨ri, hri, rfl⟩ := List.mem_map.1 hr
    rw [List.mem_filter] at hri
    have hmem : ri.1 ∈ n.rules := (List.mem_zipIdx' hri.1).2 ▸ List.getElem_mem _
    have hch := type_of_rules h (List.ne_nil_of_mem hmem)
    simp only [typeProblems, hch, choiceProblems, List.append_eq_nil_iff] at ht
    exact rulesProblems_nil ht.1.1.2 ri.1 hmem (by simpa using hri.2)
  · split at hr
    · rename_i hne
      cases List.mem_singleton.1 hr
      simp only [typeProblems, type_of_onTimeout h hne, awaitProblems, List.append_eq_nil_iff, if_neg hne] at ht
      exact refProblems_nil ht.2
    · cases hr
  · split at hr
    · rename_i hne
      cases List.mem_singleton.1 hr
      exact refProblems_nil (ho hne)
    · cases hr
  · obtain ⟨di, hdi, rfl⟩ := List.mem_map.1 hr
    have hmem : di.1 ∈ n.dynamic := (List.mem_zipIdx' hdi).2 ▸ List.getElem_mem _
    have htask := type_of_dynamic h (List.ne_nil_of_mem hmem)
    simp only [typeProblems, htask, taskProblems, List.append_eq_nil_iff, List.flatMap_eq_nil_iff] at ht
    exact refProblems_nil (ht.2 di hdi)

/-! ## The fan-out index -/

theorem FanIndex.fanOf_none {j : String} (h : ix.fanOf j = none) (a : String) :
    ix.joinOf[a]? ≠ some j := by
  intro ha
  simp only [FanIndex.fanOf, Option.map_eq_none_iff, List.find?_eq_none] at h
  exact h (a, j) (Std.ExtTreeMap.mem_toList_iff_getElem?_eq_some.2 ha) (by simp)

theorem FanIndex.fanOf_some {j a : String} (h : ix.fanOf j = some a) : ix.joinOf[a]? = some j := by
  simp only [FanIndex.fanOf, Option.map_eq_some_iff] at h
  obtain ⟨⟨a', j'⟩, hf, rfl⟩ := h
  have hj : j' = j := by simpa using List.find?_some hf
  subst hj
  exact Std.ExtTreeMap.mem_toList_iff_getElem?_eq_some.1 (List.mem_of_find?_eq_some hf)

/-- What the index says of the fan-outs among the nodes `done`, once none of them had a problem. -/
structure FanIndex.Good (f : Flow) (done : List Node) (ix : FanIndex) : Prop where
  join : ∀ {a j : String}, ix.joinOf[a]? = some j → ∃ n ∈ done, n.type = .fanout ∧ n.id = a ∧ n.next = j
  inj : ∀ {a b j : String}, ix.joinOf[a]? = some j → ix.joinOf[b]? = some j → a = b
  fan : ∀ {n : Node}, n ∈ done → n.type = .fanout → n.branches.Nodup ∧
    (∀ b ∈ n.branches, ∀ bn, f.node b = some bn → bn.type = .task ∨ bn.type = .subflow) ∧
    ∃ jn, f.node n.next = some jn ∧ jn.type = .join ∧ ix.joinOf[n.id]? = some jn.id

theorem fanBranchProblems_nil : ∀ {bs : List String} {m : SMap String} {i : Nat},
    fanBranchProblems x f n m i bs = [] → bs.Nodup ∧ ∀ b ∈ bs, m[b]? = none ∧
    ∀ bn, f.node b = some bn → bn.type = .task ∨ bn.type = .subflow
  | [], _, _, _ => ⟨List.nodup_nil, by simp⟩
  | b :: bs, m, i, h => by
    unfold fanBranchProblems at h
    split at h
    · cases h
    · rename_i hb
      rw [List.append_eq_nil_iff] at h
      obtain ⟨hd, hm⟩ := fanBranchProblems_nil h.2
      refine ⟨List.nodup_cons.2 ⟨fun hmem => ?_, hd⟩, fun b' hb' => ?_⟩
      · simpa using (hm b hmem).1
      · rcases List.mem_cons.1 hb' with rfl | hb'
        · refine ⟨hb, fun bn hbn => ?_⟩
          have h := h.1
          simp only [branchProblems, hbn, List.append_eq_nil_iff] at h
          have := h.1.1
          split at this
          · cases this
          · rename_i hty; tauto
        · refine ⟨?_, (hm b' hb').2⟩
          have := (hm b' hb').1
          rw [Std.ExtTreeMap.getElem?_insert] at this
          split at this
          · cases this
          · exact this

/-- A node other than a fan-out leaves the index alone. -/
theorem FanIndex.Good.skip {done : List Node} (g : ix.Good f done) (ht : n.type ≠ .fanout) :
    (fanStep f ix n).Good f (done ++ [n]) := by
  rw [fanStep, if_neg ht]
  refine ⟨fun h => ?_, g.inj, fun {m} hm hty => ?_⟩
  · obtain ⟨m, hm, hrest⟩ := g.join h
    exact ⟨m, List.mem_append_left _ hm, hrest⟩
  · rcases List.mem_append.1 hm with hm | hm
    · exact g.fan hm hty
    · rw [List.mem_singleton.1 hm] at hty; exact absurd hty ht

/-- A fan-out without a problem claims its join, which no fan-out before it has. -/
theorem FanIndex.Good.claim {done : List Node} (g : ix.Good f done) (ht : n.type = .fanout)
    (hp : fanProblems x f ix n = []) (hnext : ∃ t, f.node n.next = some t) (hid : ∀ m ∈ done, m.id ≠ n.id) :
    (fanStep f ix n).Good f (done ++ [n]) := by
  obtain ⟨jn, hj⟩ := hnext
  simp only [fanProblems, if_pos ht, hj, List.append_eq_nil_iff] at hp
  obtain ⟨hb, hp⟩ := hp
  obtain ⟨hnd, hbr⟩ := fanBranchProblems_nil hb
  split at hp
  · cases hp
  rename_i hjt
  replace hjt : jn.type = .join := not_not.1 hjt
  split at hp
  · cases hp
  rename_i hfree
  have hstep : (fanStep f ix n).joinOf = ix.joinOf.insert n.id jn.id := by
    simp only [fanStep, if_pos ht, claimJoin, hj, hjt, hfree, Option.isNone_none, and_self, if_true]
  refine ⟨fun {a j} h => ?_, fun {a b j} ha hb => ?_, fun {m} hm hty => ?_⟩
  · rw [hstep, Std.ExtTreeMap.getElem?_insert] at h
    split at h
    · rename_i he
      cases h
      exact ⟨n, by simp, ht, by simpa using he, (Flow.node_id hj).symm⟩
    · obtain ⟨m, hm, hrest⟩ := g.join h
      exact ⟨m, List.mem_append_left _ hm, hrest⟩
  · rw [hstep, Std.ExtTreeMap.getElem?_insert] at ha hb
    split at ha <;> split at hb
    · rename_i h1 h2; simp at h1 h2; exact h1 ▸ h2
    · cases ha; exact absurd hb (FanIndex.fanOf_none hfree b)
    · cases hb; exact absurd ha (FanIndex.fanOf_none hfree a)
    · exact g.inj ha hb
  · rw [hstep]
    rcases List.mem_append.1 hm with hm | hm
    · obtain ⟨h1, h2, jn', hj', hjt', hjo⟩ := g.fan hm hty
      refine ⟨h1, h2, jn', hj', hjt', ?_⟩
      rw [Std.ExtTreeMap.getElem?_insert, if_neg (by simpa using (hid m hm).symm)]
      exact hjo
    · cases List.mem_singleton.1 hm
      exact ⟨hnd, fun b hb => (hbr b hb).2, jn, hj, hjt, by simp⟩

/-- The whole pass of `validateFans`, from an index that is good for the nodes before. -/
theorem fansProblems_nil : ∀ {ns done : List Node} {ix : FanIndex}, ix.Good f done →
    ((done ++ ns).map Node.id).Nodup → (∀ n ∈ ns, n.type = .fanout → ∃ t, f.node n.next = some t) →
    fansProblems x f ix ns = [] → (ns.foldl (fanStep f) ix).Good f (done ++ ns)
  | [], done, ix, g, _, _, _ => by simpa using g
  | n :: ns, done, ix, g, hd, hnext, h => by
    simp only [fansProblems, List.append_eq_nil_iff] at h
    have hid : ∀ m ∈ done, m.id ≠ n.id := by
      rw [List.map_append, List.nodup_append] at hd
      exact fun m hm => hd.2.2 _ (List.mem_map_of_mem hm) _ (by simp)
    have g' : (fanStep f ix n).Good f (done ++ [n]) := by
      by_cases ht : n.type = .fanout
      · exact g.claim ht h.1 (hnext n (by simp) ht) hid
      · exact g.skip ht
    have := fansProblems_nil g' (by simpa using hd) (fun m hm => hnext m (List.mem_cons_of_mem _ hm)) h.2
    simpa using this

/-! ## The whole flow -/

/-- The checks of `Validate`, taken apart. -/
structure Accepted (x : Ext) (f : Flow) : Prop where
  ids : (f.nodes.map Node.id).Nodup
  id_ne : ∀ n ∈ f.nodes, n.id ≠ ""
  node : ∀ n ∈ f.nodes, nodeProblems x f n = []
  index : f.fanIndex.Good f f.nodes
  join : ∀ n ∈ f.nodes, joinProblems x f f.fanIndex n = []
  route : ∀ n ∈ f.nodes, ∀ r ∈ routes n, routeProblems x f n r = []
  start : startProblems x f = []

theorem local_of_validate (h : validate x f = []) : localProblems x f = [] := by
  unfold validate at h
  split at h
  · simp at h
  · split at h
    · rename_i hne; exact absurd h hne
    · rename_i hlocal; exact not_not.1 hlocal

theorem accepted_of_validate (h : validate x f = []) : Accepted x f := by
  have hlocal := local_of_validate h
  unfold validate at h
  split at h
  · simp at h
  split at h
  · rename_i hne; exact absurd h hne
  simp only [localProblems, List.append_eq_nil_iff, List.flatMap_eq_nil_iff] at hlocal
  obtain ⟨⟨⟨-, hidx⟩, -⟩, hnode⟩ := hlocal
  obtain ⟨hids, hmem⟩ := indexProblems_nil hidx
  simp only [graphProblems, branchEntryProblems, List.append_eq_nil_iff, List.flatMap_eq_nil_iff] at h
  obtain ⟨⟨⟨⟨hfans, hjoin⟩, hroute⟩, hstart⟩, -⟩ := h
  have hnext : ∀ n ∈ f.nodes, n.type = .fanout → ∃ t, f.node n.next = some t := by
    intro n hn ht
    obtain ⟨-, hty, hnx, -⟩ := nodeProblems_nil (hnode n hn)
    simp only [typeProblems, ht, fanoutProblems, List.append_eq_nil_iff, problemIf_nil, decide_eq_false_iff_not] at hty
    exact refProblems_nil (hnx hty.2)
  have hgood : f.fanIndex.Good f ([] ++ f.nodes) := by
    refine fansProblems_nil ⟨fun {a j} ha => ?_, fun {a b j} ha => ?_, fun hm => ?_⟩ (by simpa using hids) hnext hfans
    · simp at ha
    · simp at ha
    · cases hm
  exact ⟨hids, fun n hn => (hmem n hn).1, hnode, by simpa using hgood, hjoin, hroute, hstart⟩

namespace Accepted

variable (h : Accepted x f)
include h

variable {n : Node}

theorem known (hn : n ∈ f.nodes) (t : String) : n.type ≠ .unknown t := by
  intro ht
  obtain ⟨-, hty, -, -⟩ := nodeProblems_nil (h.node n hn)
  simp [typeProblems, ht] at hty

theorem enterable_of_ne_join (hn : n ∈ f.nodes) (ht : n.type ≠ .join) : n.type.enterable = true := by
  cases hty : n.type with
  | join => exact absurd hty ht
  | unknown s => exact absurd hty (h.known hn s)
  | _ => rfl

/-- A node that is no fan-out has no join of its own. -/
theorem joinOf_none (hn : n ∈ f.nodes) (ht : n.type ≠ .fanout) (j : String) : f.joinOf n.id ≠ some j := by
  intro hj
  obtain ⟨m, hm, hmt, hid, -⟩ := h.index.join hj
  have : m = n := Option.some.inj ((Flow.node_of_mem h.ids hm).symm.trans (hid ▸ Flow.node_of_mem h.ids hn))
  exact ht (this ▸ hmt)

theorem route_enterable (hn : n ∈ f.nodes) (ht : n.type ≠ .fanout) {r : Route} (hr : r ∈ routes n) :
    Enterable f r.target := by
  obtain ⟨t, hres⟩ := route_resolves (h.node n hn) hr
  refine ⟨t, hres, h.enterable_of_ne_join (Flow.node_mem hres) fun hj => ?_⟩
  have hp := h.route n hn r hr
  unfold routeProblems at hp
  split at hp
  · cases hp
  · simp [hres, hj, h.joinOf_none hn ht] at hp

/-- A join closes a fan-out, whose next it is. -/
theorem join_target (hn : n ∈ f.nodes) (ht : n.type = .join) : isTarget f n.id = true := by
  have hp := h.join n hn
  simp only [joinProblems, if_pos ht] at hp
  split at hp
  · cases hp
  · rename_i fan hfan
    obtain ⟨m, hm, -, -, hnext⟩ := h.index.join (FanIndex.fanOf_some hfan)
    refine List.any_eq_true.2 ⟨m, hm, ?_⟩
    simp [successors, routes, hnext, h.id_ne n hn]

theorem start_enterable : Enterable f (f.startNode.getD "") := by
  have hs := h.start
  unfold startProblems at hs
  unfold Flow.startNode
  split at hs
  · rename_i hne
    rw [if_pos hne]
    split at hs
    · cases hs
    · rename_i n hn
      split at hs
      · cases hs
      · rename_i hnot
        have hid : n.id = f.start := Flow.node_id hn
        simp only [hnot, if_false, Option.getD_some]
        refine ⟨n, hid.symm ▸ hn, h.enterable_of_ne_join (Flow.node_mem hn) fun hj => hnot (.inr hj)⟩
  · rename_i hne
    rw [if_neg hne]
    split at hs
    · rename_i id hsrc
      rw [hsrc]
      have hmem : id ∈ sources f := by rw [hsrc]; simp
      obtain ⟨n, hn, rfl⟩ := List.mem_map.1 hmem
      rw [List.mem_filter] at hn
      refine ⟨n, Flow.node_of_mem h.ids hn.1, h.enterable_of_ne_join hn.1 fun hj => ?_⟩
      have := hn.2
      rw [h.join_target hn.1 hj] at this
      cases this
    · cases hs
    · cases hs

theorem fanOk (hn : n ∈ f.nodes) (ht : n.type = .fanout) : FanOk f n := by
  obtain ⟨hnd, hbr, jn, hjn, hjt, hjo⟩ := h.index.fan hn ht
  have hjid : jn.id = n.next := Flow.node_id hjn
  obtain ⟨-, hty, -, -⟩ := nodeProblems_nil (h.node n hn)
  simp only [typeProblems, ht, fanoutProblems, List.append_eq_nil_iff, List.flatMap_eq_nil_iff] at hty
  have hne : n.branches ≠ [] := by
    intro he
    have := hty.1.1
    simp [he] at this
  have hres : ∀ b ∈ n.branches, ∃ bn, f.node b = some bn := by
    intro b hb
    obtain ⟨i, hi, hbi⟩ := List.getElem_of_mem hb
    exact refProblems_nil (hty.1.2 (b, i) (List.mem_zipIdx_iff_getElem?.2 (by simp [hi, hbi])))
  have hfan : f.fanIndex.fanOf jn.id = some n.id := by
    cases hf : f.fanIndex.fanOf jn.id with
    | none => exact absurd hjo (FanIndex.fanOf_none hf n.id)
    | some a => rw [h.index.inj (FanIndex.fanOf_some hf) hjo]
  have hself : f.node n.id = some n := Flow.node_of_mem h.ids hn
  have hj : f.node jn.id = some jn := hjid ▸ hjn
  refine ⟨hne, hnd, fun b hb => ?_, jn, hjo, hj, hjt, ?_, ?_⟩
  · obtain ⟨bn, hbn⟩ := hres b hb
    exact ⟨bn, hbn, hbr b hb bn hbn⟩
  · unfold Flow.waitFor
    simp only [hj, hfan, hself]
    split
    · assumption
    · exact hne
  · unfold Flow.waitFor
    simp only [hj, hfan, hself]
    split
    · intro w hw
      have hp := h.join jn (Flow.node_mem hj)
      simp only [joinProblems, if_pos hjt, hfan, hself, List.append_eq_nil_iff, List.map_eq_nil_iff,
        List.filter_eq_nil_iff] at hp
      obtain ⟨i, hi, hwi⟩ := List.getElem_of_mem hw
      have := hp.1 (w, i) (List.mem_zipIdx_iff_getElem?.2 (by simp [hi, hwi]))
      simpa using this
    · exact fun w hw => hw

end Accepted

/-- **An accepted flow is well formed.** -/
theorem wellFormed_of_validate (hv : validate x f = []) : WellFormed f := by
  have h := accepted_of_validate hv
  have hroute : ∀ {id n r}, f.node id = some n → n.type ≠ .fanout → r ∈ routes n → Enterable f r.target :=
    fun hn ht hr => h.route_enterable (Flow.node_mem hn) ht hr
  refine
    { id_ne := fun hn => Flow.node_id hn ▸ h.id_ne _ (Flow.node_mem hn)
      next := fun {id n} hn ht hne => hroute hn ht (r := ⟨"next", n.next⟩) (by simp [routes, hne])
      onFailure := fun {id n} hn hne => ?_
      onTimeout := fun {id n} hn hne => ?_
      dynamic := fun {id n d} hn hd => ?_
      rule := fun {id n r} hn hr hne => ?_
      default := fun {id n} hn ht => ?_
      fan := fun hn ht => h.fanOk (Flow.node_mem hn) ht
      start := h.start_enterable }
  · exact hroute hn (fanout_of_onFailure (h.node n (Flow.node_mem hn)) hne) (r := ⟨"on_failure", n.onFailure⟩)
      (by simp [routes, hne])
  · have ht := type_of_onTimeout (h.node n (Flow.node_mem hn)) hne
    exact hroute hn (by simp [ht]) (r := ⟨"on_timeout", n.onTimeout⟩) (by simp [routes, hne])
  · have ht := type_of_dynamic (h.node n (Flow.node_mem hn)) (List.ne_nil_of_mem hd)
    obtain ⟨i, hi, hdi⟩ := List.getElem_of_mem hd
    refine hroute hn (by simp [ht]) (r := ⟨at_ "dynamic" i, d⟩) ?_
    refine List.mem_append_right _ (List.mem_map.2 ⟨(d, i), ?_, rfl⟩)
    exact List.mem_zipIdx_iff_getElem?.2 (by simp [hi, hdi])
  · have ht := type_of_rules (h.node n (Flow.node_mem hn)) (List.ne_nil_of_mem hr)
    obtain ⟨i, hi, hri⟩ := List.getElem_of_mem hr
    refine hroute hn (by simp [ht]) (r := ⟨at_ "rules" i ++ ".to", r.toNode⟩) ?_
    simp only [routes, List.mem_append]
    refine .inl (.inl (.inl (.inr (List.mem_map.2 ⟨(r, i), List.mem_filter.2 ⟨?_, by simpa using hne⟩, rfl⟩))))
    exact List.mem_zipIdx_iff_getElem?.2 (by simp [hi, hri])
  · obtain ⟨-, hty, -, -⟩ := nodeProblems_nil (h.node n (Flow.node_mem hn))
    simp only [typeProblems, ht, choiceProblems, List.append_eq_nil_iff, problemIf_nil] at hty
    obtain ⟨⟨⟨hne, -⟩, hdef⟩, -⟩ := hty
    have hlen : (n.rules.filter Rule.default).length = 1 := by
      rw [hne, Bool.not_false, Bool.true_and, decide_eq_false_iff_not, not_not] at hdef
      exact hdef
    obtain ⟨r, hr⟩ := List.exists_mem_of_length_pos (l := n.rules.filter Rule.default) (by omega)
    exact ⟨r, (List.mem_filter.1 hr).1, (List.mem_filter.1 hr).2⟩

/-! ## Joins -/

/-- The policy of a join: what it counts, and how many branches that takes. -/
structure JoinOk (f : Flow) (n : Node) : Prop where
  nodup : (f.waitFor n.id).Nodup
  known : ∀ t, n.joinKind ≠ .unknown t
  quorum : ∀ {q}, n.joinKind = .quorum q → 0 < q ∧ q ≤ (f.waitFor n.id).length
  min : ∀ {q}, n.joinKind = .min q → 0 ≤ q ∧ q ≤ (f.waitFor n.id).length

/-- A well formed flow whose joins can be met. -/
structure Checked (f : Flow) : Prop extends WellFormed f where
  joins : ∀ {id n}, f.node id = some n → n.type = .join → JoinOk f n

theorem waitForProblems_nil : ∀ {ws seen : List String} {i : Nat}, waitForProblems x f n i seen ws = [] →
    ws.Nodup ∧ ∀ w ∈ ws, w ∉ seen
  | [], _, _, _ => ⟨List.nodup_nil, by simp⟩
  | w :: ws, seen, i, h => by
    simp only [waitForProblems, List.append_eq_nil_iff, problemIf_nil] at h
    obtain ⟨⟨-, hnew⟩, hrest⟩ := h
    obtain ⟨hnd, hout⟩ := waitForProblems_nil hrest
    refine ⟨List.nodup_cons.2 ⟨fun hmem => hout w hmem List.mem_cons_self, hnd⟩, fun w' hw' => ?_⟩
    rcases List.mem_cons.1 hw' with rfl | hw'
    · simpa using hnew
    · exact fun hs => hout w' hw' (List.mem_cons_of_mem _ hs)

namespace Accepted

variable (h : Accepted x f)
include h

theorem waitFor_nodup {n : Node} (hn : n ∈ f.nodes) (ht : n.type = .join) : (f.waitFor n.id).Nodup := by
  obtain ⟨-, hty, -, -⟩ := nodeProblems_nil (h.node n hn)
  simp only [typeProblems, ht, List.append_eq_nil_iff] at hty
  unfold Flow.waitFor
  rw [Flow.node_of_mem h.ids hn]
  simp only
  split
  · exact (waitForProblems_nil hty.1).1
  · split
    · exact List.nodup_nil
    · rename_i fan hfan
      obtain ⟨m, hm, hmt, hid, -⟩ := h.index.join (FanIndex.fanOf_some hfan)
      rw [← hid, Flow.node_of_mem h.ids hm]
      exact (h.fanOk hm hmt).nodup

theorem joinOk {n : Node} (hn : n ∈ f.nodes) (ht : n.type = .join) : JoinOk f n := by
  obtain ⟨-, hty, -, -⟩ := nodeProblems_nil (h.node n hn)
  simp only [typeProblems, ht, List.append_eq_nil_iff, policyProblems] at hty
  have hfan := h.join n hn
  simp only [joinProblems, if_pos ht] at hfan
  cases hf : f.fanIndex.fanOf n.id with
  | none => simp [hf] at hfan
  | some fan =>
    simp only [hf, List.append_eq_nil_iff] at hfan
    refine ⟨h.waitFor_nodup hn ht, fun t hk => ?_, fun {q} hk => ?_, fun {q} hk => ?_⟩
    · simp [hk] at hty
    · simp only [hk, problemIf_nil, decide_eq_false_iff_not] at hty hfan
      have := hfan.2
      split at this
      · cases this
      · omega
    · simp only [hk, problemIf_nil, decide_eq_false_iff_not] at hty hfan
      have := hfan.2
      split at this
      · cases this
      · omega

end Accepted

theorem checked_of_validate (hv : validate x f = []) : Checked f :=
  { wellFormed_of_validate hv with
    joins := fun hn ht => (accepted_of_validate hv).joinOk (Flow.node_mem hn) ht }

end

end Packtrail
