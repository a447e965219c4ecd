import Packtrail.Decisions

/-
# The ids of derived commands

Every command that packtrail sends to itself carries an id made of other ids. The engine dead-letters a command whose
envelope does not validate (`internal/engine/engine.go:147-152`); the dispatcher, which validates what it publishes, returns the
error instead and is delivered the same decision again (`internal/wire/wire.go:230-233`).

| here | there |
| --- | --- |
| `CmdType`, `Envelope`, `Envelope.validate` | `Type`, `Command`, `Validate` (`internal/cmd/cmd.go:34-72`, `:193-216`) |
| `cmdID`              | `CmdID` (`internal/wire/wire.go:144-148`) |
| `workerResult`       | the command of a worker's result (`worker/worker.go:439-503`, `:598`) |
| `cachedResult`       | the command of a cached result (`internal/dispatch/dispatch.go:549`) |
| `timerCommand`, `startChildCommand`, `parentClosed`, `childDoneCommand`, `expiry` | `internal/dispatch/dispatch.go:603`, `:632`, `:647`, `:677`, `:702` |
| `triggerExecID`, `triggerStart` | `internal/names/names.go:247-271`, `internal/wire/wire.go:310` |

Generations, attempts and the numbers of timers and children are Go `int`s.

**`derived_commands_accepted`**: all of these are accepted, the two that answer a job exactly when its ids are short enough
together: `w.<execution>.<key>.<generation>.<attempt>` may take 256 bytes, and two tokens alone may take as many.
-/

namespace Packtrail

inductive CmdType
  | start | fork | complete | fail | interrupt | resume | signal | cancel | update | timer | childDone | archive | delete
  | redispatch
  | unknown (s : String)
  deriving DecidableEq, Repr

def CmdType.known : CmdType → Bool
  | .unknown _ => false
  | _ => true

/-- A command without its payload, which `Validate` does not read. -/
structure Envelope where
  id : String
  type : CmdType
  execID : String
  deriving DecidableEq, Repr

def maxIDLen : Nat := 256

def Envelope.validate (quote : String → String) (c : Envelope) : Option String :=
  if c.id = "" then some "cmd: missing id"
  else if maxIDLen < c.id.utf8ByteSize then some ("cmd: id longer than " ++ toString maxIDLen)
  else match checkToken quote "execution id" c.execID with
    | some e => some ("cmd: " ++ e)
    | none =>
      match c.type with
      | .unknown t => some ("cmd: unknown type " ++ quote t)
      | _ => none

/-- The reason the engine dead-letters a command for, before it decides it. -/
def Envelope.undecodable (quote : String → String) (c : Envelope) : Option String :=
  (c.validate quote).map fun e => "undecodable command: " ++ e

/-- `PublishCmd` up to the stream: what is published, or the error the dispatcher retries on. -/
def publishCmd (quote : String → String) (c : Envelope) : Except String Envelope :=
  match c.validate quote with
  | some e => .error e
  | none => .ok c

/-- Published by the dispatcher and not dead-lettered by the engine. -/
def Envelope.Accepted (quote : String → String) (c : Envelope) : Prop := publishCmd quote c = .ok c ∧ c.undecodable quote = none

/-! ## The commands -/

def cmdID (execID key : String) (gen attempt : Nat) : String :=
  "w." ++ execID ++ "." ++ key ++ "." ++ toString gen ++ "." ++ toString attempt

/-- The key of a task instance: its node, or the item of a map. -/
def instanceKey (node : String) (item : Option Nat) : String := item.elim node (itemKey node)

def workerResult (type : CmdType) (execID key : String) (gen attempt : Nat) : Envelope := ⟨cmdID execID key gen attempt, type, execID⟩

def cachedResult (execID key : String) (gen attempt : Nat) : Envelope := ⟨cmdID execID key gen attempt, .complete, execID⟩

def timerCommand (execID timerID : String) : Envelope := ⟨"timer." ++ execID ++ "." ++ timerID, .timer, execID⟩

def startChildCommand (childID : String) : Envelope := ⟨"start." ++ childID, .start, childID⟩

def parentClosed (child : String) : Envelope := ⟨"parent-closed." ++ child, .cancel, child⟩

def childDoneCommand (execID parent : String) : Envelope := ⟨"child-done." ++ execID, .childDone, parent⟩

/-- `string(typ) + "." + st.ExecID`; `deletes` is `DeletesOnExpire`. -/
def expiry (deletes : Bool) (execID : String) : Envelope :=
  if deletes then ⟨"delete." ++ execID, .delete, execID⟩ else ⟨"archive." ++ execID, .archive, execID⟩

def maxToken : Nat := 128

def triggerHashLen : Nat := 26

/-- `base32` is the lower-case base32 text of a SHA-256 sum. -/
def triggerExecID (base32 : String → String) (flow key : String) : String :=
  let keep := maxToken - "-t".length - triggerHashLen
  let kept := if keep < flow.length then String.ofList (flow.toList.take keep) else flow
  kept ++ "-t" ++ String.ofList ((base32 (flow ++ "\x00" ++ key)).toList.take triggerHashLen)

def triggerStart (execID : String) : Envelope := ⟨"trigger." ++ execID, .start, execID⟩

/-! ## Sizes -/

section
variable {quote : String → String} {c : Envelope}

theorem Envelope.accepted_iff : c.Accepted quote ↔ c.validate quote = none := by
  unfold Envelope.Accepted publishCmd Envelope.undecodable
  cases c.validate quote with
  | none => simp
  | some e => simp

theorem Envelope.accepted_of_known (hid : c.id ≠ "") (hexec : validToken c.execID = true) (ht : c.type.known = true) :
    c.Accepted quote ↔ c.id.utf8ByteSize ≤ maxIDLen := by
  rw [Envelope.accepted_iff, Envelope.validate, if_neg hid, checkToken, if_pos hexec]
  constructor
  · intro h
    by_contra hlt
    rw [if_pos (by omega)] at h
    cases h
  · intro hle
    rw [if_neg (by omega)]
    revert ht
    cases c.type <;> simp [CmdType.known]

variable {ch : Char} {n : Nat} {execID s : String} {type : CmdType}

theorem utf8Size_of_le (h : ch.toNat < 128) : ch.utf8Size = 1 := by
  have hle : ch.val ≤ 0x7f := by
    rw [UInt32.le_iff_toNat_le]
    exact Nat.le_of_lt_succ h
  simp [Char.utf8Size, hle]

theorem utf8Size_of_tokenChar (h : tokenChar ch = true) : ch.utf8Size = 1 := by
  refine utf8Size_of_le ?_
  have hlt : ∀ {a b : Char}, a ≤ b → a.toNat ≤ b.toNat := fun hab => hab
  simp only [tokenChar, decide_eq_true_eq] at h
  rcases h with ⟨-, h⟩ | ⟨-, h⟩ | ⟨-, h⟩ | rfl | rfl
  · exact (hlt h).trans_lt (by decide)
  · exact (hlt h).trans_lt (by decide)
  · exact (hlt h).trans_lt (by decide)
  · decide
  · decide

theorem utf8Size_of_digit (h : ch ∈ (toString n).toList) : ch.utf8Size = 1 := by
  rw [toString_toList] at h
  have hd : ch.isDigit = true := Nat.isDigit_of_mem_toDigits (by decide) (by decide) h
  refine utf8Size_of_le ?_
  simp only [Char.isDigit, Bool.and_eq_true, decide_eq_true_eq] at hd
  have hle : ch.val.toNat ≤ 57 := hd.2
  exact hle.trans_lt (by decide)

/-- A text of token characters has as many bytes as characters. -/
theorem utf8ByteSize_of_chars (h : ∀ ch ∈ s.toList, ch.utf8Size = 1) : s.utf8ByteSize = s.length := by
  rw [← String.ofList_toList (s := s), String.utf8ByteSize_ofList, String.length_ofList]
  generalize s.toList = cs at h
  induction cs with
  | nil => rfl
  | cons ch cs ih =>
    rw [String.utf8Len, ih fun c hc => h c (List.mem_cons_of_mem _ hc), h ch List.mem_cons_self, List.length_cons]

theorem utf8ByteSize_of_token (h : validToken s = true) : s.utf8ByteSize = s.length ∧ s.length ≤ 128 := by
  simp only [validToken, Bool.and_eq_true, List.all_eq_true, decide_eq_true_eq] at h
  exact ⟨utf8ByteSize_of_chars fun ch hch => utf8Size_of_tokenChar (h.1.1 ch hch), h.2⟩

theorem utf8ByteSize_toString (n : Nat) : (toString n).utf8ByteSize = (toString n).length :=
  utf8ByteSize_of_chars fun _ h => utf8Size_of_digit h

/-- A Go `int` has at most nineteen digits. -/
theorem length_toString_le (h : n < 2 ^ 63) : (toString n).length ≤ 19 :=
  Nat.repr_length n 19 (by decide) (h.trans (by decide))

theorem utf8ByteSize_instanceKey {node : String} (h : validToken node = true) (item : Option Nat) :
    (instanceKey node item).utf8ByteSize = (instanceKey node item).length := by
  refine utf8ByteSize_of_chars fun ch hch => ?_
  simp only [validToken, Bool.and_eq_true, List.all_eq_true, decide_eq_true_eq] at h
  cases item with
  | none => exact utf8Size_of_tokenChar (h.1.1 ch hch)
  | some i =>
    simp only [instanceKey, Option.elim, itemKey, String.toList_append, List.mem_append] at hch
    rcases hch with (hch | hch) | hch
    · exact utf8Size_of_tokenChar (h.1.1 ch hch)
    · obtain rfl : ch = '#' := by simpa using hch
      decide
    · exact utf8Size_of_digit hch

/-! ## Derived execution ids are tokens -/

theorem validToken_iff : validToken s = true ↔ (∀ ch ∈ s.toList, tokenChar ch = true) ∧ 1 ≤ s.length ∧ s.length ≤ 128 := by
  simp only [validToken, Bool.and_eq_true, List.all_eq_true, decide_eq_true_eq, and_assoc]
  rfl

theorem tokenChar_of_digit (h : ch ∈ (toString n).toList) : tokenChar ch = true := by
  rw [toString_toList] at h
  have hd : ch.isDigit = true := Nat.isDigit_of_mem_toDigits (by decide) (by decide) h
  simp only [Char.isDigit, Bool.and_eq_true, decide_eq_true_eq] at hd
  simp only [tokenChar, decide_eq_true_eq]
  exact .inr (.inr (.inl hd))

/-- The hexadecimal text of twelve bytes. -/
def HexPrefix (sha12 : String → String) : Prop := ∀ s, (∀ ch ∈ (sha12 s).toList, tokenChar ch = true) ∧ (sha12 s).length = 24

/-- The base32 text of thirty-two bytes. -/
def Base32Sum (base32 : String → String) : Prop := ∀ s, (∀ ch ∈ (base32 s).toList, tokenChar ch = true) ∧ (base32 s).length = 52

theorem childID_valid {x : Ext} (hsha : HexPrefix x.sha12) (parent : String) (hn : n < 2 ^ 63) :
    validToken (childID x parent n) = true := by
  unfold childID
  simp only
  split
  · assumption
  · obtain ⟨hchars, hlen⟩ := hsha parent
    have hdigits := length_toString_le hn
    refine validToken_iff.2 ⟨fun ch hch => ?_, ?_⟩
    · simp only [String.toList_append, List.mem_append] at hch
      rcases hch with (hch | hch) | hch
      · exact hchars ch hch
      · have hc : ch = '-' ∨ ch = 'c' := by simpa using hch
        rcases hc with rfl | rfl <;> decide
      · exact tokenChar_of_digit hch
    · have htag : "-c".length = 2 := rfl
      simp only [String.length_append, htag, hlen]
      omega

theorem triggerExecID_valid {base32 : String → String} (hbase : Base32Sum base32) {flow : String} (hflow : validToken flow = true)
    (key : String) : validToken (triggerExecID base32 flow key) = true := by
  obtain ⟨hchars, hlen⟩ := hbase (flow ++ "\x00" ++ key)
  obtain ⟨hfchars, -, hflen⟩ := validToken_iff.1 hflow
  have hkept : ∀ ch ∈ (if 100 < flow.length then String.ofList (flow.toList.take 100) else flow).toList, tokenChar ch = true := by
    intro ch hch
    split at hch
    · rw [String.toList_ofList] at hch
      exact hfchars ch (List.mem_of_mem_take hch)
    · exact hfchars ch hch
  have hkeep : (if 100 < flow.length then String.ofList (flow.toList.take 100) else flow).length ≤ 100 := by
    split
    · rw [String.length_ofList, List.length_take]
      omega
    · omega
  refine validToken_iff.2 ⟨fun ch hch => ?_, ?_⟩
  · simp only [triggerExecID, String.toList_append, List.mem_append] at hch
    rcases hch with (hch | hch) | hch
    · exact hkept ch hch
    · have hc : ch = '-' ∨ ch = 't' := by simpa using hch
      rcases hc with rfl | rfl <;> decide
    · rw [String.toList_ofList] at hch
      exact hchars ch (List.mem_of_mem_take hch)
  · have hhash : (String.ofList ((base32 (flow ++ "\x00" ++ key)).toList.take 26)).length = 26 := by
      rw [String.length_ofList, List.length_take]
      have : (base32 (flow ++ "\x00" ++ key)).toList.length = 52 := hlen
      omega
    have htag : "-t".length = 2 := rfl
    have hall : (triggerExecID base32 flow key).length =
        (if 100 < flow.length then String.ofList (flow.toList.take 100) else flow).length + 2 + 26 := by
      rw [← hhash, ← htag]
      simp only [triggerExecID, String.length_append]
      rfl
    omega

/-! ## The theorem -/

/-- The ids of a job, short enough together. -/
def JobIDsFit (execID key : String) (gen attempt : Nat) : Prop :=
  execID.length + key.length + (toString gen).length + (toString attempt).length ≤ 251

theorem answer_accepted (ht : type.known = true) {node : String} (hexec : validToken execID = true)
    (hnode : validToken node = true) (item : Option Nat) (gen attempt : Nat) :
    (workerResult type execID (instanceKey node item) gen attempt).Accepted quote ↔ JobIDsFit execID (instanceKey node item) gen attempt := by
  have hsize : (cmdID execID (instanceKey node item) gen attempt).utf8ByteSize =
      execID.length + (instanceKey node item).length + (toString gen).length + (toString attempt).length + 5 := by
    have hw : "w.".utf8ByteSize = 2 := by decide
    have hdot : ".".utf8ByteSize = 1 := by decide
    simp only [cmdID, String.utf8ByteSize_append, (utf8ByteSize_of_token hexec).1, utf8ByteSize_instanceKey hnode,
      utf8ByteSize_toString, hw, hdot]
    omega
  have hne : cmdID execID (instanceKey node item) gen attempt ≠ "" := fun he => by
    rw [he] at hsize
    have hzero : "".utf8ByteSize = 0 := by decide
    omega
  have hiff := @Envelope.accepted_of_known quote (workerResult type execID (instanceKey node item) gen attempt) hne hexec ht
  rw [hiff, JobIDsFit]
  change (cmdID execID (instanceKey node item) gen attempt).utf8ByteSize ≤ 256 ↔ _
  omega

/-- A tag and what it tags. -/
theorem tagged_accepted {tag target : String} (htag : 0 < tag.utf8ByteSize)
    (hsize : tag.utf8ByteSize + s.utf8ByteSize ≤ 256) (htarget : validToken target = true) (ht : type.known = true) :
    (⟨tag ++ s, type, target⟩ : Envelope).Accepted quote := by
  refine (Envelope.accepted_of_known (c := ⟨tag ++ s, type, target⟩) (fun he => ?_) htarget ht).2 ?_
  · have hz := congrArg String.utf8ByteSize he
    rw [String.utf8ByteSize_append] at hz
    have hzero : "".utf8ByteSize = 0 := by decide
    omega
  · rw [String.utf8ByteSize_append]
    exact hsize

theorem tagged_token_accepted {tag target : String} (htag : 0 < tag.utf8ByteSize) (hsmall : tag.utf8ByteSize ≤ 128)
    (hs : validToken s = true) (htarget : validToken target = true) (ht : type.known = true) :
    (⟨tag ++ s, type, target⟩ : Envelope).Accepted quote := by
  obtain ⟨hbytes, hlen⟩ := utf8ByteSize_of_token hs
  exact tagged_accepted htag (by omega) htarget ht

theorem timer_accepted (hexec : validToken execID = true) {nr : Nat} (hnr : nr < 2 ^ 63) :
    (timerCommand execID (timerID nr)).Accepted quote := by
  obtain ⟨hbytes, hlen⟩ := utf8ByteSize_of_token hexec
  have hdigits := length_toString_le hnr
  have hsize : (timerID nr).utf8ByteSize ≤ 20 := by
    have ht : "t".utf8ByteSize = 1 := by decide
    rw [timerID, String.utf8ByteSize_append, utf8ByteSize_toString, ht]
    omega
  have htag : ("timer." ++ execID ++ ".").utf8ByteSize = execID.length + 7 := by
    have htimer : "timer.".utf8ByteSize = 6 := by decide
    have hdot : ".".utf8ByteSize = 1 := by decide
    rw [String.utf8ByteSize_append, String.utf8ByteSize_append, hbytes, htimer, hdot]
    omega
  exact tagged_accepted (by omega) (by omega) hexec rfl

theorem expiry_accepted (hexec : validToken execID = true) (deletes : Bool) : (expiry deletes execID).Accepted quote := by
  cases deletes with
  | false => exact tagged_token_accepted (by decide) (by decide) hexec hexec rfl
  | true => exact tagged_token_accepted (by decide) (by decide) hexec hexec rfl

/-- **Every derived command is accepted**, those that answer a job when its ids are short enough together. -/
theorem derived_commands_accepted {x : Ext} {base32 : String → String} (hsha : HexPrefix x.sha12) (hbase : Base32Sum base32)
    {execID parent node flow : String} (hexec : validToken execID = true) (hparent : validToken parent = true)
    (hnode : validToken node = true) (hflow : validToken flow = true) (item : Option Nat) (gen attempt : Nat) {nr : Nat}
    (hnr : nr < 2 ^ 63) (key : String) (deletes : Bool) :
    (∀ type : CmdType, type = .complete ∨ type = .fail ∨ type = .interrupt →
      ((workerResult type execID (instanceKey node item) gen attempt).Accepted x.quote ↔
        JobIDsFit execID (instanceKey node item) gen attempt)) ∧
    ((cachedResult execID (instanceKey node item) gen attempt).Accepted x.quote ↔
      JobIDsFit execID (instanceKey node item) gen attempt) ∧
    (timerCommand execID (timerID nr)).Accepted x.quote ∧ (startChildCommand (childID x execID nr)).Accepted x.quote ∧
    (childDoneCommand execID parent).Accepted x.quote ∧ (parentClosed (childID x execID nr)).Accepted x.quote ∧
    (triggerStart (triggerExecID base32 flow key)).Accepted x.quote ∧ (expiry deletes execID).Accepted x.quote := by
  have hchild := childID_valid hsha execID hnr
  have htrigger := triggerExecID_valid hbase hflow key
  refine ⟨fun type ht => ?_, answer_accepted rfl hexec hnode item gen attempt, timer_accepted hexec hnr, ?_, ?_, ?_, ?_,
    expiry_accepted hexec deletes⟩
  · rcases ht with rfl | rfl | rfl <;> exact answer_accepted rfl hexec hnode item gen attempt
  · exact tagged_token_accepted (by decide) (by decide) hchild hchild rfl
  · exact tagged_token_accepted (by decide) (by decide) hexec hparent rfl
  · exact tagged_token_accepted (by decide) (by decide) hchild hchild rfl
  · exact tagged_token_accepted (by decide) (by decide) htrigger htrigger rfl

end

/-- The digest of `r1`; no other text is hashed below. -/
def digestExt : Ext :=
  { plainExt with sha12 := fun s => if s = "r1" then "82f3e9c695dc6b8d1b11818d" else .ofList (List.replicate 24 '0') }

theorem digest_of_token {s : String} {n : Nat} (hs : validToken s = true) (hn : s.length = n) :
    (∀ ch ∈ s.toList, tokenChar ch = true) ∧ s.length = n := ⟨(validToken_iff.1 hs).1, hn⟩

theorem digestExt_hex : HexPrefix digestExt.sha12 := by
  intro s
  by_cases h : s = "r1"
  · simp only [digestExt, if_pos h]
    exact digest_of_token (by decide) (by decide)
  · simp only [digestExt, if_neg h]
    exact digest_of_token (by decide) (by decide)

/-- The digest of the trigger of `review` by message `m1`, and of the one by message 7 of stream `mail`; no other text is
hashed below. -/
def triggerDigest (s : String) : String :=
  if s = "review\x00msg\x00m1" then "kl4oyvc3ymjeljo2zok766lqnn6zkdrmrhzfsgqyxlyoyksbgbqq"
  else if s = "review\x00seq\x00mail\x007" then "xmjm3lz6wofc46a3g5mzt5gqg7so2mzzjkph5d4n2xuvm36jm6wq"
  else .ofList (List.replicate 52 'a')

theorem triggerDigest_base32 : Base32Sum triggerDigest := by
  intro s
  unfold triggerDigest
  split
  · exact digest_of_token (by decide) (by decide)
  · split <;> exact digest_of_token (by decide) (by decide)

theorem review_commands_accepted :
    (workerResult .complete "r1" "draft" 1 1).Accepted digestExt.quote ∧ (cachedResult "r1" "draft" 1 1).Accepted digestExt.quote ∧
    (timerCommand "r1" "t3").Accepted digestExt.quote ∧ (startChildCommand (childID digestExt "r1" 3)).Accepted digestExt.quote := by
  have h := derived_commands_accepted digestExt_hex triggerDigest_base32 (show validToken "r1" = true by decide) (show validToken "r0" = true by decide)
    (show validToken "draft" = true by decide) (show validToken "review" = true by decide) none 1 1 (show 3 < 2 ^ 63 by decide)
    "msg\x00m1" false
  have hfits : JobIDsFit "r1" (instanceKey "draft" none) 1 1 := by unfold JobIDsFit; decide
  exact ⟨(h.1 .complete (.inl rfl)).2 hfits, h.2.1.2 hfits, h.2.2.1, h.2.2.2.1⟩

def longExecID : String := .ofList (List.replicate 128 'e')

def longNode : String := .ofList (List.replicate 128 'n')

/-- Two tokens of full length: the worker's answer is dead-lettered, a cached one is never published. -/
theorem long_ids_refused : validToken longExecID = true ∧ validToken longNode = true ∧
    (workerResult .complete longExecID (instanceKey longNode none) 1 1).undecodable id =
      some "undecodable command: cmd: id longer than 256" ∧
    publishCmd id (cachedResult longExecID (instanceKey longNode none) 1 1) = .error "cmd: id longer than 256" := by
  decide +kernel

end Packtrail
