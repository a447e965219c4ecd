import Packtrail.Entering

/-
# The start command of a trigger

| here | there |
| --- | --- |
| `bytesTrimSpace`         | `bytes.TrimSpace`: white space as `unicode.IsSpace` has it, in UTF-8 |
| `isObjectText`           | `isObject` on the bytes of a message (`internal/fold/decide.go:1302-1306`) |
| `triggerStartData`       | `TriggerStart` (`internal/wire/wire.go:300-311`) |
| `JsonText`               | `encoding/json`: `parse` is `Unmarshal` (`Valid` when it gives a value), `text` the string a message is encoded as |
| `maxNestingDepth`        | the nesting `encoding/json` reads |

A message is wrapped as `{"data": …}` unless it is a JSON object. `TriggerStart` looks for the brace at the first byte,
the engine behind the white space, and both call white space something else than JSON does.
**`trigger_documented_iff`**: a message arrives as documented exactly when an object has no white space before it and only
JSON's after it, and is not nested too deep for a command.
-/

namespace Packtrail

open Emitter Replay

/-! ## Texts -/

/-- The four blanks of JSON. -/
def jsonBlank (b : UInt8) : Bool := [9, 10, 13, 32].contains b

/-- The bytes a JSON value can start with. -/
def jsonOpens (b : UInt8) : Bool := [123, 91, 34, 45, 48, 49, 50, 51, 52, 53, 54, 55, 56, 57, 116, 102, 110].contains b

/-- The bytes a JSON value can end with. -/
def jsonCloses (b : UInt8) : Bool := [125, 93, 34, 48, 49, 50, 51, 52, 53, 54, 55, 56, 57, 101, 108].contains b

def openBrace : UInt8 := 123

/-- The white space runes of `unicode.IsSpace`, encoded. -/
def spaces : List (List UInt8) :=
  [[9], [10], [11], [12], [13], [32], [0xC2, 0x85], [0xC2, 0xA0], [0xE1, 0x9A, 0x80], [0xE2, 0x80, 0x80], [0xE2, 0x80, 0x81],
   [0xE2, 0x80, 0x82], [0xE2, 0x80, 0x83], [0xE2, 0x80, 0x84], [0xE2, 0x80, 0x85], [0xE2, 0x80, 0x86], [0xE2, 0x80, 0x87],
   [0xE2, 0x80, 0x88], [0xE2, 0x80, 0x89], [0xE2, 0x80, 0x8A], [0xE2, 0x80, 0xA8], [0xE2, 0x80, 0xA9], [0xE2, 0x80, 0xAF],
   [0xE2, 0x81, 0x9F], [0xE3, 0x80, 0x80]]

/-- Drops members of `pre` from the front, one after another; the length of `b` is enough fuel. -/
def dropAny (pre : List (List UInt8)) : Nat → List UInt8 → List UInt8
  | 0, b => b
  | f + 1, b =>
    match pre.find? (·.isPrefixOf b) with
    | none => b
    | some p => dropAny pre f (b.drop p.length)

def bytesTrimSpace (b : List UInt8) : List UInt8 :=
  let t := dropAny spaces b.length b
  (dropAny (spaces.map List.reverse) t.length t.reverse).reverse

/-- What is assumed of `encoding/json`. -/
structure JsonText where
  parse : List UInt8 → Option Json
  text : List UInt8 → String
  empty : parse [] = none
  blank_left : ∀ {c : UInt8} {b : List UInt8}, jsonBlank c = true → parse (c :: b) = parse b
  blank_right : ∀ {c : UInt8} {b : List UInt8}, jsonBlank c = true → parse (b ++ [c]) = parse b
  opens : ∀ {c : UInt8} {b : List UInt8}, (parse (c :: b)).isSome → jsonBlank c = true ∨ jsonOpens c = true
  closes : ∀ {c : UInt8} {b : List UInt8}, (parse (b ++ [c])).isSome → jsonBlank c = true ∨ jsonCloses c = true
  object : ∀ {b : List UInt8} {v : Json}, parse (openBrace :: b) = some v → isObject (some v) = true
  /-- A string in an object is shorter than the object's text. -/
  shorter : ∀ {b : List UInt8} {k t : String}, parse b = some (.obj [(k, .str t)]) → t.length < (text b).length
  trimmed : ∀ b, (text (bytesTrimSpace b)).length ≤ (text b).length

def maxNestingDepth : Nat := 10000

mutual
def Json.depth : Json → Nat
  | .arr xs => itemDepth xs + 1
  | .obj ms => memberDepth ms + 1
  | _ => 0

def itemDepth : List Json → Nat
  | [] => 0
  | x :: xs => max x.depth (itemDepth xs)

def memberDepth : List (String × Json) → Nat
  | [] => 0
  | (_, x) :: ms => max x.depth (memberDepth ms)
end

section
variable (J : JsonText)

/-- `isObject` (`decide.go:1302-1306`) on bytes. -/
def isObjectText (b : List UInt8) : Bool :=
  let t := bytesTrimSpace b
  t.head? == some openBrace && (J.parse t).isSome

/-! ## `TriggerStart` -/

def wrapData (v : Json) : Json := .obj [("data", v)]

/-- The input `TriggerStart` makes of a message, by its value. -/
def triggerInput (data : List UInt8) : Json :=
  match data, J.parse data with
  | [], _ => wrapData (.str (J.text data))
  | _, none => wrapData (.str (J.text data))
  | b :: _, some v => if b ≠ openBrace then wrapData v else v

/-- Nothing when the payload cannot be encoded. -/
def triggerStartData (flow : String) (data : List UInt8) : Option Cmd.StartData :=
  if (triggerInput J data).depth ≤ maxNestingDepth then some { flow, input := some (triggerInput J data) } else none

/-- `c.Payload` of a start command: the payload is an object around the input. -/
def Cmd.StartData.received (p : Cmd.StartData) : CmdData :=
  if p.input.encoded.depth + 1 ≤ maxNestingDepth then .start p else .undecodable "start" "exceeded max depth"

def triggerCommand (execID : String) (p : Cmd.StartData) : Command := ⟨"trigger." ++ execID, p.received⟩

/-! ## What is documented -/

/-- The body itself when it is an object; otherwise the body wrapped once, as the value it is or as a string. -/
def documentedInput (data : List UInt8) : Json :=
  if isObjectText J data then (J.parse (bytesTrimSpace data)).getD .null
  else wrapData ((J.parse data).getD (.str (J.text data)))

/-- The command is built with the documented input and starts an execution with it. A failure to hash the flow or to encode
the items of a map is no refusal: the command is tried again. -/
structure TriggerDocumented (x : Ext) (fl : Flow) (p : Cmd.StartData) (execID : String) (now : Time) (body : Json) : Prop where
  input : p.input = some body
  accepted : ∀ e, (Packtrail.decide x fl (State.new execID) (triggerCommand execID p) now).result = .error e → ∃ m, e = .other m
  started : ∀ evs, (Packtrail.decide x fl (State.new execID) (triggerCommand execID p) now).result = .ok evs →
    ∃ ev rest d, evs = ev :: rest ∧ ev.data = .started d ∧ d.input = some body

/-- No white space before the object, only JSON's after it. -/
def TidyObject (data : List UInt8) : Prop := ∃ r, data = bytesTrimSpace data ++ r ∧ ∀ b ∈ r, jsonBlank b = true

end

/-! ## White space -/

/-- The members of `pre` start with no byte of `edge`, and a blank among them stands alone. -/
def Fringe (edge : UInt8 → Bool) (pre : List (List UInt8)) : Bool :=
  pre.all fun
    | [] => false
    | c :: q => (!jsonBlank c || q.isEmpty) && !edge c

/-- Before a text that starts with blanks and then with a byte of `edge`, only the blanks are dropped. -/
theorem dropAny_blanks {edge : UInt8 → Bool} {pre : List (List UInt8)} (hpre : Fringe edge pre = true) {ok : List UInt8 → Prop}
    (first : ∀ {c b}, ok (c :: b) → jsonBlank c = true ∨ edge c = true) (rest : ∀ {c b}, jsonBlank c = true → ok (c :: b) → ok b) :
    ∀ (f : Nat) (b : List UInt8), ok b → ∃ l, (∀ c ∈ l, jsonBlank c = true) ∧ b = l ++ dropAny pre f b ∧ ok (dropAny pre f b)
  | 0, b, hb => ⟨[], by simp, rfl, hb⟩
  | f + 1, b, hb => by
    unfold dropAny
    cases hfind : pre.find? (·.isPrefixOf b) with
    | none => exact ⟨[], by simp, rfl, hb⟩
    | some p =>
      have hp := List.all_eq_true.1 hpre p (List.mem_of_find?_eq_some hfind)
      have hpb : p <+: b := List.isPrefixOf_iff_prefix.1 (by simpa using List.find?_some hfind)
      cases p with
      | nil => cases hp
      | cons c q =>
        obtain ⟨t, rfl⟩ := hpb
        simp only [Bool.and_eq_true, Bool.or_eq_true, Bool.not_eq_true', List.isEmpty_iff] at hp
        have hc : jsonBlank c = true := (first hb).resolve_right (by simp [hp.2])
        obtain rfl : q = [] := hp.1.resolve_left (by simp [hc])
        obtain ⟨l, hl, ht, hok⟩ := dropAny_blanks hpre first rest f t (rest hc hb)
        refine ⟨c :: l, ?_, ?_, hok⟩
        · intro d hd
          rcases List.mem_cons.1 hd with rfl | hd
          · exact hc
          · exact hl d hd
        · show c :: t = c :: l ++ dropAny pre f t
          rw [List.cons_append, ← ht]

namespace JsonText

variable {J : JsonText}

theorem blanks_left {l b : List UInt8} (hl : ∀ c ∈ l, jsonBlank c = true) : J.parse (l ++ b) = J.parse b := by
  induction l with
  | nil => rfl
  | cons c l ih =>
    rw [List.cons_append, J.blank_left (hl c List.mem_cons_self)]
    exact ih fun d hd => hl d (List.mem_cons_of_mem _ hd)

theorem blanks_right {r b : List UInt8} (hr : ∀ c ∈ r, jsonBlank c = true) : J.parse (b ++ r) = J.parse b := by
  induction r generalizing b with
  | nil => rw [List.append_nil]
  | cons c r ih =>
    rw [← List.singleton_append, ← List.append_assoc, ih fun d hd => hr d (List.mem_cons_of_mem _ hd)]
    exact J.blank_right (hr c List.mem_cons_self)

/-- Around a valid text `TrimSpace` takes blanks of JSON only. -/
theorem trim_valid {b : List UInt8} (h : (J.parse b).isSome) :
    ∃ l r, (∀ c ∈ l, jsonBlank c = true) ∧ (∀ c ∈ r, jsonBlank c = true) ∧ b = l ++ (bytesTrimSpace b ++ r) := by
  have hopens : Fringe jsonOpens spaces = true := by decide
  have hcloses : Fringe jsonCloses (spaces.map List.reverse) = true := by decide
  obtain ⟨l, hl, hb, hok⟩ := @dropAny_blanks _ _ hopens (fun b => (J.parse b).isSome) (fun h => J.opens h)
    (fun hc h => by rwa [J.blank_left hc] at h) b.length b h
  -- the same from behind: the text is read backwards
  obtain ⟨r, hr, ht, -⟩ := @dropAny_blanks _ _ hcloses (fun b => (J.parse b.reverse).isSome) (fun h => J.closes (by simpa using h))
    (fun hc h => by simpa [J.blank_right hc] using h) (dropAny spaces b.length b).length (dropAny spaces b.length b).reverse
    (by simpa using hok)
  refine ⟨l, r.reverse, hl, fun c hc => hr c (List.mem_reverse.1 hc), hb.trans (congrArg (l ++ ·) ?_)⟩
  rw [← List.reverse_reverse (dropAny spaces b.length b), ht, List.reverse_append]
  rfl

theorem parse_trim {b : List UInt8} (h : (J.parse b).isSome) : J.parse (bytesTrimSpace b) = J.parse b := by
  obtain ⟨l, r, hl, hr, hb⟩ := trim_valid h
  rw [← blanks_right hr, ← blanks_left hl, ← hb]

end JsonText

/-! ## The input of the command -/

section
variable {J : JsonText} {data : List UInt8}

theorem wrapData_ne (v : Json) : wrapData v ≠ v := by
  intro h
  have hsize := congrArg sizeOf h
  simp [wrapData] at hsize
  omega

theorem isObjectText_iff : isObjectText J data = true ↔
    ∃ b v, bytesTrimSpace data = openBrace :: b ∧ J.parse (bytesTrimSpace data) = some v := by
  unfold isObjectText
  simp only [Bool.and_eq_true, beq_iff_eq, Option.isSome_iff_exists, List.head?_eq_some_iff]
  exact ⟨fun ⟨⟨b, hb⟩, v, hv⟩ => ⟨b, v, hb, hv⟩, fun ⟨b, v, hb, hv⟩ => ⟨⟨b, hb⟩, v, hv⟩⟩

theorem triggerInput_none (h : J.parse data = none) : triggerInput J data = wrapData (.str (J.text data)) := by
  unfold triggerInput
  rw [h]
  cases data <;> rfl

theorem triggerInput_some {b : UInt8} {l : List UInt8} {v : Json} (h : J.parse (b :: l) = some v) :
    triggerInput J (b :: l) = if b ≠ openBrace then wrapData v else v := by
  unfold triggerInput
  rw [h]

/-- The input is an object, whatever the message. -/
theorem triggerInput_object (J : JsonText) (data : List UInt8) : isObject (some (triggerInput J data)) = true := by
  cases hp : J.parse data with
  | none => rw [triggerInput_none hp]; rfl
  | some v =>
    cases data with
    | nil => rw [J.empty] at hp; cases hp
    | cons b l =>
      rw [triggerInput_some hp]
      by_cases hb : b = openBrace
      · subst hb
        simpa using J.object hp
      · simp [hb, wrapData, isObject]

/-- A message that is a valid text and starts with a brace is an object to the engine. -/
theorem isObjectText_of_brace {l : List UInt8} {v : Json} (h : J.parse (openBrace :: l) = some v) :
    isObjectText J (openBrace :: l) = true ∧ TidyObject (openBrace :: l) := by
  have hsome : (J.parse (openBrace :: l)).isSome := by rw [h]; rfl
  obtain ⟨bl, r, hl, hr, hb⟩ := JsonText.trim_valid hsome
  -- the brace is no blank, so nothing was cut before it
  obtain rfl : bl = [] := by
    cases bl with
    | nil => rfl
    | cons c bl =>
      obtain rfl : openBrace = c := (List.cons.inj hb).1
      exact absurd (hl _ List.mem_cons_self) (by decide)
  have htidy : openBrace :: l = bytesTrimSpace (openBrace :: l) ++ r := hb
  refine ⟨isObjectText_iff.2 ?_, r, htidy, hr⟩
  have hparse := JsonText.parse_trim hsome
  cases ht : bytesTrimSpace (openBrace :: l) with
  | nil =>
    rw [ht, J.empty, h] at hparse
    cases hparse
  | cons c t =>
    rw [ht] at htidy hparse
    obtain rfl : openBrace = c := (List.cons.inj htidy).1
    exact ⟨t, v, rfl, hparse.trans h⟩

/-- The input is the documented one unless the engine sees an object where `TriggerStart` does not. -/
theorem triggerInput_documented_iff (J : JsonText) (data : List UInt8) :
    triggerInput J data = documentedInput J data ↔ (isObjectText J data = true → TidyObject data) := by
  unfold documentedInput
  by_cases hobj : isObjectText J data = true
  · obtain ⟨b, v, hb, hv⟩ := isObjectText_iff.1 hobj
    simp only [hobj, if_true, hv, Option.getD_some, true_imp_iff]
    constructor
    · intro hin
      cases hp : J.parse data with
      | none =>
        -- the object would hold a string as long as the message
        rw [triggerInput_none hp] at hin
        have hshort := J.shorter (hv.trans (congrArg some hin.symm))
        have htrim := J.trimmed data
        omega
      | some w =>
        have hw : w = v := by
          have := JsonText.parse_trim (J := J) (b := data) (by rw [hp]; rfl)
          rw [hv, hp] at this
          exact (Option.some.inj this).symm
        subst hw
        cases data with
        | nil => rw [J.empty] at hp; cases hp
        | cons c l =>
          rw [triggerInput_some hp] at hin
          by_cases hc : c = openBrace
          · subst hc
            exact (isObjectText_of_brace hp).2
          · rw [if_pos hc] at hin
            exact absurd hin (wrapData_ne w)
    · rintro ⟨r, hr, hblank⟩
      rw [hb] at hr
      have hp : J.parse data = some v := by
        rw [hr, JsonText.blanks_right hblank, ← hb, hv]
      rw [hr] at hp ⊢
      rw [List.cons_append] at hp ⊢
      rw [triggerInput_some hp]
      simp
  · simp only [hobj, if_false, Bool.false_eq_true, false_imp_iff, iff_true]
    cases hp : J.parse data with
    | none => rw [triggerInput_none hp]; rfl
    | some v =>
      cases data with
      | nil => rw [J.empty] at hp; cases hp
      | cons c l =>
        have hc : c ≠ openBrace := fun hc => hobj (by subst hc; exact (isObjectText_of_brace hp).1)
        rw [triggerInput_some hp, if_pos hc]
        rfl

end

/-! ## The start decision -/

/-- A start with an object ends with an error of its own at most, and begins with the input it was given. -/
theorem start_emits {c : Ctx} {s : State} {p : Cmd.StartData} {input : Json} (he : s.exists = false) (hp : p.input = some input)
    (hobj : isObject (some input) = true) :
    Yields Err.inner (start c p) s fun _ _ evs => ∃ ev rest d, evs = ev :: rest ∧ ev.data = .started d ∧ d.input = some input := by
  unfold start
  refine Yields.getSt ?_
  have hin : (if isNull p.input = true then Json.obj [] else p.input.encoded) = input := by
    rw [hp]
    cases input <;> first | rfl | cases hobj
  simp only [he, hin, hobj, Bool.false_eq_true, if_false, if_true]
  split
  · exact Yields.throw trivial
  · refine Yields.bind (Yields.emit (P := fun _ _ evs => evs = [c.event _ s]) (fun _ _ => rfl) fun _ ha => Err.inner_of (State.apply_error ha)) ?_
    rintro _ s' _ rfl
    exact Yields.mono (enter_visits _ s') fun _ _ rest _ => ⟨_, rest, _, rfl, rfl, rfl⟩

theorem Err.other_of_inner {e : Err} (hi : e.inner) (hb : e.benign) : ∃ m, e = .other m := by
  cases e with
  | other m => exact ⟨m, rfl⟩
  | apply _ | panic _ | fuel => exact hb.elim
  | notFound _ | invalid _ | rejected _ | conflict _ => exact hi.elim

/-- **A message arrives as documented exactly when** an object has no white space before it and only JSON's after it, and is
not nested too deep. -/
theorem trigger_documented_iff {x : Ext} {fl : Flow} (hv : validate x fl = []) (J : JsonText) (data : List UInt8)
    (execID : String) (now : Time) :
    (∃ p, triggerStartData J fl.name data = some p ∧ TriggerDocumented x fl p execID now (documentedInput J data)) ↔
      (isObjectText J data = true → TidyObject data) ∧ (documentedInput J data).depth + 1 ≤ maxNestingDepth := by
  rw [← triggerInput_documented_iff]
  constructor
  · rintro ⟨p, hp, hdoc⟩
    unfold triggerStartData at hp
    split at hp
    · cases hp
      have hin : triggerInput J data = documentedInput J data := Option.some.inj hdoc.input
      refine ⟨hin, ?_⟩
      by_contra hdeep
      -- the start decision cannot decode the command
      obtain ⟨m, hm⟩ := hdoc.accepted (.invalid "exceeded max depth") (by
        simp only [triggerCommand, Cmd.StartData.received, Raw.encoded, Option.getD_some, hin, if_neg hdeep]
        rfl)
      cases hm
    · cases hp
  · rintro ⟨hin, hdepth⟩
    rw [← hin] at hdepth ⊢
    have hbuilt : triggerStartData J fl.name data = some { flow := fl.name, input := some (triggerInput J data) } := if_pos (by omega)
    generalize hp : ({ flow := fl.name, input := some (triggerInput J data) } : Cmd.StartData) = p at hbuilt
    have hpi : p.input = some (triggerInput J data) := by rw [← hp]
    have hrec : p.received = .start p := if_pos (by rw [hpi]; exact hdepth)
    have hdec : Packtrail.decide x fl (State.new execID) (triggerCommand execID p) now =
        runDecision (start ⟨x, fl, now, "trigger." ++ execID⟩ p) (State.new execID) := by
      simp only [Packtrail.decide, triggerCommand, hrec, CmdData.isStart, if_true, decideData]
    have hemits := start_emits (c := ⟨x, fl, now, "trigger." ++ execID⟩) (State.absent_new execID).not_exists hpi (triggerInput_object J data)
    have hruns := start_runs (c := ⟨x, fl, now, "trigger." ++ execID⟩) (wellFormed_of_validate hv) (State.absent_new execID) p
    refine ⟨p, hbuilt, hpi, fun e he => ?_, fun evs hok => ?_⟩
    · rw [hdec] at he
      exact Err.other_of_inner (Yields.refused hemits he) (Runs.refused hruns he)
    · rw [hdec] at hok
      exact Yields.decision hemits hok

/-! ## Two messages

A reader of one value is enough: the empty object, with blanks anywhere around its braces. -/

theorem dropAny_length (pre : List (List UInt8)) : ∀ (f : Nat) (b : List UInt8), (dropAny pre f b).length ≤ b.length
  | 0, _ => Nat.le_refl _
  | f + 1, b => by
    unfold dropAny
    split
    · exact Nat.le_refl _
    · rename_i p _
      have := dropAny_length pre f (b.drop p.length)
      rw [List.length_drop] at this
      omega

theorem bytesTrimSpace_length (b : List UInt8) : (bytesTrimSpace b).length ≤ b.length := by
  have hl := dropAny_length spaces b.length b
  have hr := dropAny_length (spaces.map List.reverse) (dropAny spaces b.length b).length (dropAny spaces b.length b).reverse
  rw [List.length_reverse] at hr
  simp only [bytesTrimSpace, List.length_reverse]
  omega

def solid (b : List UInt8) : List UInt8 := b.filter fun c => !jsonBlank c

def emptyObjectText : JsonText where
  parse b := if solid b = [openBrace, 125] then some (.obj []) else none
  text b := String.ofList (b.map fun c => Char.ofNat c.toNat)
  empty := rfl
  blank_left {c b} h := by
    have he : solid (c :: b) = solid b := by simp [solid, h]
    rw [he]
  blank_right {c b} h := by
    have he : solid (b ++ [c]) = solid b := by simp [solid, h]
    rw [he]
  opens {c b} h := by
    by_cases hc : jsonBlank c = true
    · exact .inl hc
    · refine .inr ?_
      simp only [solid, List.filter_cons, hc, Bool.not_false, if_true] at h
      split at h
      · rename_i he
        rw [(List.cons.inj he).1]
        rfl
      · cases h
  closes {c b} h := by
    by_cases hc : jsonBlank c = true
    · exact .inl hc
    · refine .inr ?_
      simp only [solid, List.filter_append, List.filter_cons, hc, Bool.not_false, if_true, List.filter_nil] at h
      split at h
      · rename_i he
        have hlast := congrArg List.getLast? he
        simp only [List.getLast?_append, List.getLast?_singleton, Option.some_or] at hlast
        rw [Option.some.inj hlast]
        rfl
      · cases h
  object h := by
    split at h
    · cases h; rfl
    · cases h
  shorter h := by
    split at h
    · cases h
    · cases h
  trimmed b := by simpa using bytesTrimSpace_length b

/-- An object and a line feed after it. -/
theorem bare_object_arrives :
    (∃ p, triggerStartData emptyObjectText "review" [123, 125, 10] = some p ∧
      TriggerDocumented plainExt oneTask p "r1" 1 (documentedInput emptyObjectText [123, 125, 10])) ∧
    isObjectText emptyObjectText [123, 125, 10] = true :=
  ⟨(trigger_documented_iff oneTask_valid emptyObjectText [123, 125, 10] "r1" 1).2
    ⟨fun _ => ⟨[10], rfl, by simp [jsonBlank]⟩, by decide +kernel⟩, rfl⟩

/-- An object after a blank is an object to the engine, and arrives wrapped. -/
theorem blank_object_wrapped :
    isObjectText emptyObjectText [32, 123, 125] = true ∧ emptyObjectText.parse [32, 123, 125] = some (.obj []) ∧
    triggerStartData emptyObjectText "review" [32, 123, 125] = some { flow := "review", input := some (.obj [("data", .obj [])]) } :=
  ⟨rfl, rfl, rfl⟩

end Packtrail
