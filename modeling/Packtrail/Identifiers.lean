import Packtrail.CommandIds

/-
# Derived identifiers do not collide

Keys and ids are glued together from tokens, which hold neither the dots and hashes between the parts nor the zero
byte between a flow and a trigger's key, so the parts can be read back.

| here | there |
| --- | --- |
| `jobMsgID`           | `JobMsgID` (`internal/wire/wire.go:139-142`) |
| `TriggerKey.execID`  | `TriggerMsgExecID`, `TriggerSeqExecID` (`internal/names/names.go:243-256`) |

**`identifiers_distinct`**: instance keys, job and command ids, child ids that were not shortened, and the execution
ids of triggers are equal only when everything they were made of is, and a child's id is a token other than its parent's.
-/

namespace Packtrail

def jobMsgID (execID key : String) (gen attempt : Nat) : String :=
  "job." ++ execID ++ "." ++ key ++ "." ++ toString gen ++ "." ++ toString attempt

/-- What identifies the execution that a trigger starts: a message id, or a stream and a sequence number. -/
inductive TriggerKey
  | msg (flow msgID : String)
  | seq (flow stream : String) (nr : Nat)

namespace TriggerKey

def flow : TriggerKey → String
  | .msg flow _ => flow
  | .seq flow _ _ => flow

def key : TriggerKey → String
  | .msg _ msgID => "msg\x00" ++ msgID
  | .seq _ stream nr => "seq\x00" ++ stream ++ "\x00" ++ toString nr

def execID (base32 : String → String) (t : TriggerKey) : String := triggerExecID base32 t.flow t.key

/-- What is hashed. -/
def input (t : TriggerKey) : String := t.flow ++ "\x00" ++ t.key

/-- The flow and the stream are tokens; a message id is any text. -/
def Valid : TriggerKey → Prop
  | .msg flow _ => validToken flow = true
  | .seq flow stream _ => validToken flow = true ∧ validToken stream = true

end TriggerKey

/-! ## Cutting at a separator -/

theorem cut_inj {c : Char} : ∀ {a b x y : List Char}, c ∉ a → c ∉ b → a ++ c :: x = b ++ c :: y → a = b ∧ x = y
  | [], [], x, y, _, _, h => ⟨rfl, by simpa using h⟩
  | [], d :: b, x, y, _, hb, h => by
    have hd : c = d := (List.cons.inj h).1
    exact absurd (hd ▸ List.mem_cons_self) hb
  | d :: a, [], x, y, ha, _, h => by
    have hd : d = c := (List.cons.inj h).1
    exact absurd (hd ▸ List.mem_cons_self) ha
  | d :: a, e :: b, x, y, ha, hb, h => by
    obtain ⟨hde, hrest⟩ := List.cons.inj h
    obtain ⟨hab, hxy⟩ := cut_inj (fun hc => ha (List.mem_cons_of_mem _ hc)) (fun hc => hb (List.mem_cons_of_mem _ hc)) hrest
    exact ⟨by rw [hde, hab], hxy⟩

/-- The same for texts around a separator of one character. -/
theorem cut_string_inj {c : Char} {sep a b x y : String} (hsep : sep.toList = [c]) (ha : c ∉ a.toList) (hb : c ∉ b.toList)
    (h : a ++ sep ++ x = b ++ sep ++ y) : a = b ∧ x = y := by
  have hl := congrArg String.toList h
  simp only [String.toList_append, hsep, List.append_assoc, List.singleton_append] at hl
  obtain ⟨hab, hxy⟩ := cut_inj ha hb hl
  exact ⟨String.toList_injective hab, String.toList_injective hxy⟩

theorem not_mem_token {c : Char} {s : String} (hs : validToken s = true) (hc : tokenChar c = false) : c ∉ s.toList := by
  intro hmem
  rw [(validToken_iff.1 hs).1 c hmem] at hc
  cases hc

theorem not_mem_digits {c : Char} {n : Nat} (hc : tokenChar c = false) : c ∉ (toString n).toList := by
  intro hmem
  rw [tokenChar_of_digit hmem] at hc
  cases hc

theorem not_mem_instanceKey {node : String} (hn : validToken node = true) (item : Option Nat) : '.' ∉ (instanceKey node item).toList := by
  cases item with
  | none => exact not_mem_token hn (by decide)
  | some i =>
    simp only [instanceKey, Option.elim, itemKey, String.toList_append, List.mem_append, not_or]
    exact ⟨⟨not_mem_token hn (by decide), by decide⟩, not_mem_digits (by decide)⟩

/-! ## Keys and message ids -/

theorem instanceKey_inj {node node' : String} {item item' : Option Nat} (hn : validToken node = true) (hn' : validToken node' = true)
    (h : instanceKey node item = instanceKey node' item') : node = node' ∧ item = item' := by
  have hhash : ∀ {s : String} {m : String} {i : Nat}, validToken s = true → s ≠ itemKey m i := fun hs he =>
    not_mem_token hs (show tokenChar '#' = false by decide) (he ▸ by simp [itemKey])
  cases item with
  | none =>
    cases item' with
    | none => exact ⟨h, rfl⟩
    | some j => exact absurd h (hhash hn)
  | some i =>
    cases item' with
    | none => exact absurd h.symm (hhash hn')
    | some j =>
      obtain ⟨he, hi⟩ := cut_string_inj (c := '#') rfl (not_mem_token hn (by decide)) (not_mem_token hn' (by decide)) h
      exact ⟨he, congrArg some (toString_inj hi)⟩

/-- What comes after the tag of a job or command id. -/
theorem attempt_inj {tag e e' k k' : String} {g g' a a' : Nat} (he : '.' ∉ e.toList) (he' : '.' ∉ e'.toList) (hk : '.' ∉ k.toList)
    (hk' : '.' ∉ k'.toList)
    (h : tag ++ e ++ "." ++ k ++ "." ++ toString g ++ "." ++ toString a = tag ++ e' ++ "." ++ k' ++ "." ++ toString g' ++ "." ++ toString a') :
    e = e' ∧ k = k' ∧ g = g' ∧ a = a' := by
  have hg : ∀ n : Nat, '.' ∉ (toString n).toList := fun n => not_mem_digits (by decide)
  have hdot : ".".toList = ['.'] := rfl
  have hl := congrArg String.toList h
  simp only [String.toList_append, hdot, List.append_assoc, List.singleton_append] at hl
  obtain ⟨h1, hl⟩ := cut_inj he he' (List.append_cancel_left hl)
  obtain ⟨h2, hl⟩ := cut_inj hk hk' hl
  obtain ⟨h3, h4⟩ := cut_inj (hg g) (hg g') hl
  exact ⟨String.toList_injective h1, String.toList_injective h2, toString_inj (String.toList_injective h3),
    toString_inj (String.toList_injective h4)⟩

/-! ## Children -/

section
variable {x : Ext} {parent parent' : String} {n n' : Nat}

/-- The id of the child was not shortened. -/
def KeptWhole (parent : String) (n : Nat) : Prop := validToken (parent ++ "-c" ++ toString n) = true

theorem childID_whole (h : KeptWhole parent n) : childID x parent n = parent ++ "-c" ++ toString n := if_pos h

theorem childID_inj (h : KeptWhole parent n) (h' : KeptWhole parent' n') (he : childID x parent n = childID x parent' n') :
    parent = parent' ∧ n = n' := by
  rw [childID_whole h, childID_whole h'] at he
  obtain rfl : n = n' := Numbered.inj ⟨parent, rfl⟩ ⟨parent', he⟩
  have hl := congrArg String.toList he
  simp only [String.toList_append] at hl
  exact ⟨String.toList_injective (List.append_cancel_right (List.append_cancel_right hl)), rfl⟩

/-- A shortened id is shorter than a parent whose id had to be shortened. -/
theorem childID_ne_parent (hsha : HexPrefix x.sha12) (hp : validToken parent = true) (hn : n < 2 ^ 63) : childID x parent n ≠ parent := by
  have htag : "-c".length = 2 := rfl
  have hdigits := length_toString_le hn
  unfold childID
  simp only
  split
  · intro he
    have hl := congrArg String.length he
    simp only [String.length_append, htag] at hl
    omega
  · rename_i hlong
    intro he
    have hl := congrArg String.length he
    simp only [String.length_append, htag, (hsha parent).2] at hl
    refine hlong (validToken_iff.2 ⟨fun ch hch => ?_, ?_⟩)
    · simp only [String.toList_append, List.mem_append] at hch
      rcases hch with (hch | hch) | hch
      · exact (validToken_iff.1 hp).1 ch hch
      · have hc : ch = '-' ∨ ch = 'c' := by simpa using hch
        rcases hc with rfl | rfl <;> decide
      · exact tokenChar_of_digit hch
    · simp only [String.length_append, htag]
      omega

end

/-! ## Triggers -/

theorem TriggerKey.key_inj {s t : TriggerKey} (hs : s.Valid) (ht : t.Valid) (hf : s.flow = t.flow) (hk : s.key = t.key) : s = t := by
  have hl := congrArg String.toList hk
  cases s with
  | msg flow msgID =>
    cases t with
    | msg flow' msgID' =>
      simp only [key, String.toList_append] at hl
      rw [show flow = flow' from hf, String.toList_injective (List.append_cancel_left hl)]
    | seq flow' stream nr => simp [key] at hl
  | seq flow stream nr =>
    cases t with
    | msg flow' msgID => simp [key] at hl
    | seq flow' stream' nr' =>
      have hzero : "\x00".toList = ['\x00'] := rfl
      simp only [key, String.toList_append, hzero, List.append_assoc, List.singleton_append] at hl
      obtain ⟨h1, h2⟩ := cut_inj (not_mem_token hs.2 (by decide)) (not_mem_token ht.2 (by decide)) (List.append_cancel_left hl)
      rw [show flow = flow' from hf, String.toList_injective h1, toString_inj (String.toList_injective h2)]

/-- The digest of a trigger's execution id. -/
def digest (base32 : String → String) (s : String) : List Char := (base32 s).toList.take triggerHashLen

/-- The id ends in a digest of fixed length, which tells what was hashed. -/
theorem TriggerKey.execID_inj {base32 : String → String} (hbase : Base32Sum base32) {S : Set String} (hinj : S.InjOn (digest base32))
    {s t : TriggerKey} (hs : s.Valid) (ht : t.Valid) (hsS : s.input ∈ S) (htS : t.input ∈ S) (h : s.execID base32 = t.execID base32) :
    s = t := by
  have hlen : ∀ s, (digest base32 s).length = 26 := fun s => by
    have h52 : (base32 s).toList.length = 52 := (hbase s).2
    rw [digest, List.length_take, h52]
    rfl
  have hflow : ∀ {u : TriggerKey}, u.Valid → '\x00' ∉ u.flow.toList := fun {u} hu => by
    cases u with
    | msg _ _ => exact not_mem_token hu (by decide)
    | seq _ _ _ => exact not_mem_token hu.1 (by decide)
  have hl := congrArg String.toList h
  simp only [execID, triggerExecID, String.toList_append, String.toList_ofList] at hl
  obtain ⟨-, hdigest⟩ := List.append_inj' hl ((hlen _).trans (hlen _).symm)
  obtain ⟨hf, hk⟩ := cut_string_inj (c := '\x00') rfl (hflow hs) (hflow ht) (hinj hsS htS hdigest)
  exact key_inj hs ht hf hk

/-- **Derived identifiers never collide**, as long as no two of the texts hashed for triggers (`S`) have the same digest. -/
theorem identifiers_distinct {x : Ext} {base32 : String → String} (hsha : HexPrefix x.sha12) (hbase : Base32Sum base32)
    {S : Set String} (hinj : S.InjOn (digest base32)) :
    (∀ {node node' : String} {item item' : Option Nat}, validToken node = true → validToken node' = true →
      instanceKey node item = instanceKey node' item' → node = node' ∧ item = item') ∧
    (∀ {e e' node node' : String} {item item' : Option Nat} {g g' a a' : Nat}, validToken e = true → validToken e' = true →
      validToken node = true → validToken node' = true →
      jobMsgID e (instanceKey node item) g a = jobMsgID e' (instanceKey node' item') g' a' ∨
        cmdID e (instanceKey node item) g a = cmdID e' (instanceKey node' item') g' a' →
      e = e' ∧ instanceKey node item = instanceKey node' item' ∧ g = g' ∧ a = a') ∧
    (∀ {parent : String} {n : Nat}, validToken parent = true → n < 2 ^ 63 →
      validToken (childID x parent n) = true ∧ childID x parent n ≠ parent) ∧
    (∀ {parent parent' : String} {n n' : Nat}, KeptWhole parent n → KeptWhole parent' n' →
      childID x parent n = childID x parent' n' → parent = parent' ∧ n = n') ∧
    (∀ {s t : TriggerKey}, s.Valid → t.Valid → s.input ∈ S → t.input ∈ S → s.execID base32 = t.execID base32 → s = t) := by
  refine ⟨instanceKey_inj, fun he he' hn hn' h => ?_, fun hp hn => ⟨childID_valid hsha _ hn, childID_ne_parent hsha hp hn⟩,
    childID_inj, TriggerKey.execID_inj hbase hinj⟩
  have hdot : ∀ {t : String}, validToken t = true → '.' ∉ t.toList := fun ht => not_mem_token ht (by decide)
  rcases h with h | h
  · exact attempt_inj (hdot he) (hdot he') (not_mem_instanceKey hn _) (not_mem_instanceKey hn' _) h
  · exact attempt_inj (hdot he) (hdot he') (not_mem_instanceKey hn _) (not_mem_instanceKey hn' _) h

/-- Two triggers of one flow. -/
def mailTrigger : TriggerKey := .msg "review" "m1"

def streamTrigger : TriggerKey := .seq "review" "mail" 7

theorem triggers_distinct : mailTrigger.execID triggerDigest ≠ streamTrigger.execID triggerDigest ∧
    childID digestExt "r1" 3 ≠ "r1" ∧ jobMsgID "r1" "each#1" 2 1 ≠ jobMsgID "r1" "each#2" 2 1 := by
  have hinj : Set.InjOn (digest triggerDigest) {mailTrigger.input, streamTrigger.input} := by
    have hne : digest triggerDigest mailTrigger.input ≠ digest triggerDigest streamTrigger.input := by decide +kernel
    rintro a (rfl | rfl) b (rfl | rfl) he
    · rfl
    · exact absurd he hne
    · exact absurd he.symm hne
    · rfl
  obtain ⟨-, hjob, hchild, -, htrigger⟩ := identifiers_distinct digestExt_hex triggerDigest_base32 hinj
  refine ⟨fun he => ?_, (hchild (by decide) (by decide)).2, fun he => ?_⟩
  · have hreview : validToken "review" = true := by decide
    cases htrigger (s := mailTrigger) (t := streamTrigger) hreview ⟨hreview, by decide⟩ (.inl rfl) (.inr rfl) he
  · have hkeys := (@hjob "r1" "r1" "each" "each" (some 1) (some 2) 2 2 1 1 (by decide) (by decide) (by decide) (by decide) (.inl he)).2.1
    exact absurd hkeys (by decide)

end Packtrail
