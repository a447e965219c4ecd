import Packtrail.Lib.Replay

/-!
# Programs that emit events

A program over a session emits events one by one, each applied to the state as soon as it is
emitted, so that what the program reads next already shows it. `Runs` is the specification of a
run: the emitted events form a `Path` from the state it found, and the run ends in a state that
meets the postcondition, or in an error the specification allows. The rules below follow a program
forwards, one statement at a time.

`Agree` compares two runs instead: from related states they end with the same value or the same error,
in related states, after events that are related one by one. It asks nothing of the state a run starts
in, so it holds of programs for which `Runs` would need an invariant.
-/

namespace Emitter

open Replay

variable {σ ε κ η α β : Type}

/-- What a program works on: the state, the events emitted so far, and its own notes. -/
structure Session (σ ε κ : Type) where
  st : σ
  out : List ε
  aux : κ

/-- A program keeps the session it reached when it ends with an error. -/
abbrev Prog (η σ ε κ α : Type) := EStateM η (Session σ ε κ) α

/-- Build an event from the current state, apply it and record it. -/
def emitWith (apply : σ → ε → Except η σ) (mk : σ → ε) : Prog η σ ε κ Unit := fun d =>
  match apply d.st (mk d.st) with
  | .ok s => .ok () { d with st := s, out := d.out ++ [mk d.st] }
  | .error e => .error e d

def getSt : Prog η σ ε κ σ := fun d => .ok d.st d

def getAux : Prog η σ ε κ κ := fun d => .ok d.aux d

def setAux (a : κ) : Prog η σ ε κ Unit := fun d => .ok () { d with aux := a }

/-- The result of a run from state `s` with `out` emitted before it: guarded events only, `Q` at the
end, errors within `B`. -/
def Ran (apply : σ → ε → Except η σ) (G : σ → ε → Prop) (B : η → Prop) (s : σ) (out : List ε)
    (Q : α → σ → Prop) : EStateM.Result η (Session σ ε κ) α → Prop
  | .ok a d => (∃ evs, d.out = out ++ evs ∧ Path apply G s evs d.st) ∧ Q a d.st
  | .error e _ => B e

/-- Program `m` run from state `s`, whatever was emitted and noted before. -/
def Runs (apply : σ → ε → Except η σ) (G : σ → ε → Prop) (B : η → Prop) (m : Prog η σ ε κ α) (s : σ)
    (Q : α → σ → Prop) : Prop :=
  ∀ out aux, Ran apply G B s out Q (m { st := s, out, aux })

variable {apply : σ → ε → Except η σ} {G : σ → ε → Prop} {B : η → Prop}
variable {m : Prog η σ ε κ α} {f : α → Prog η σ ε κ β} {s : σ}
variable {Q : α → σ → Prop} {R : β → σ → Prop}

namespace Runs

theorem pure {a : α} (h : Q a s) : Runs apply G B (Pure.pure a : Prog η σ ε κ α) s Q :=
  fun _ _ => ⟨⟨[], by simp, .nil s⟩, h⟩

theorem throw {e : η} (h : B e) : Runs apply G B (MonadExcept.throw e : Prog η σ ε κ α) s Q := fun _ _ => h

theorem mono {Q' : α → σ → Prop} (h : Runs apply G B m s Q) (hQ : ∀ a s', Q a s' → Q' a s') :
    Runs apply G B m s Q' := by
  intro out aux
  have := h out aux
  revert this
  cases m { st := s, out, aux } with
  | ok a d => exact fun ⟨p, q⟩ => ⟨p, hQ a d.st q⟩
  | error e d => exact id

theorem bind (hm : Runs apply G B m s Q) (hf : ∀ a s', Q a s' → Runs apply G B (f a) s' R) :
    Runs apply G B (m >>= f) s R := by
  intro out aux
  have hm := hm out aux
  show Ran apply G B s out R (EStateM.bind m f { st := s, out, aux })
  unfold EStateM.bind
  revert hm
  cases m { st := s, out, aux } with
  | error e d => exact id
  | ok a d =>
    rintro ⟨⟨evs, ho, hp⟩, hq⟩
    have hf := hf a d.st hq d.out d.aux
    revert hf
    show Ran apply G B d.st d.out R (f a d) → Ran apply G B s out R (f a d)
    cases f a d with
    | error e d' => exact id
    | ok b d' =>
      rintro ⟨⟨evs', ho', hp'⟩, hr⟩
      exact ⟨⟨evs ++ evs', by rw [ho', ho, List.append_assoc], hp.append hp'⟩, hr⟩

theorem emit {mk : σ → ε} {s' : σ} {Q : Unit → σ → Prop} (guard : G s (mk s)) (ok : apply s (mk s) = .ok s')
    (h : Q () s') : Runs apply G B (emitWith apply mk : Prog η σ ε κ Unit) s Q := by
  intro out aux
  simp only [emitWith, ok]
  exact ⟨⟨[mk s], rfl, .single guard ok⟩, h⟩

/-- The same for an event that may be refused. -/
theorem emitAny {mk : σ → ε} {Q : Unit → σ → Prop} (guard : G s (mk s)) (ok : ∀ s', apply s (mk s) = .ok s' → Q () s')
    (bad : ∀ e, apply s (mk s) = .error e → B e) : Runs apply G B (emitWith apply mk : Prog η σ ε κ Unit) s Q := by
  cases h : apply s (mk s) with
  | ok s' => exact emit guard h (ok s' h)
  | error e =>
    intro out aux
    simp only [emitWith, h]
    exact bad e h

theorem getSt {f : σ → Prog η σ ε κ β} (h : Runs apply G B (f s) s R) :
    Runs apply G B (Emitter.getSt >>= f) s R := h

theorem getAux {f : κ → Prog η σ ε κ β} (h : ∀ aux, Runs apply G B (f aux) s R) :
    Runs apply G B (Emitter.getAux >>= f) s R := fun out aux => h aux out aux

theorem setAux {f : Unit → Prog η σ ε κ β} {a : κ} (h : Runs apply G B (f ()) s R) :
    Runs apply G B (Emitter.setAux a >>= f) s R := fun out _ => h out a

theorem weaken {H : σ → ε → Prop} (hGH : ∀ s e, G s e → H s e) (h : Runs apply G B m s Q) : Runs apply H B m s Q := by
  intro out aux
  have h := h out aux
  revert h
  cases m { st := s, out, aux } with
  | error e d => exact id
  | ok a d => exact fun ⟨⟨evs, ho, hp⟩, hq⟩ => ⟨⟨evs, ho, hp.mono hGH⟩, hq⟩

/-- What every guarded event preserves holds at the end of a run. -/
theorem keep {I : σ → Prop} (step : ∀ s e s', I s → G s e → apply s e = .ok s' → I s') (hI : I s)
    (h : Runs apply G B m s Q) : Runs apply G B m s fun a s' => Q a s' ∧ I s' := by
  intro out aux
  have h := h out aux
  revert h
  cases m { st := s, out, aux } with
  | error e d => exact id
  | ok a d =>
    rintro ⟨⟨evs, ho, hp⟩, hq⟩
    exact ⟨⟨evs, ho, hp⟩, hq, hp.invariant step hI⟩

/-- What two specifications say of the end of a program. -/
theorem beside {G' : σ → ε → Prop} {B' : η → Prop} {Q' : α → σ → Prop} (h : Runs apply G B m s Q)
    (h' : Runs apply G' B' m s Q') : Runs apply G' B' m s fun a s' => Q a s' ∧ Q' a s' := by
  intro out aux
  have h := h out aux
  have h' := h' out aux
  revert h h'
  cases m { st := s, out, aux } with
  | error e d => exact fun _ hb => hb
  | ok a d => exact fun ⟨_, hq⟩ ⟨hp, hq'⟩ => ⟨hp, hq, hq'⟩

end Runs

/-! ## Two runs -/

section
variable {S : σ → σ → Prop} {E : ε → ε → Prop} {L : κ → σ → ε → Prop} {a : κ}

/-- Two runs with notes `a` that ended well: `evs` and `evs'` were emitted. -/
structure InStep (apply : σ → ε → Except η σ) (S : σ → σ → Prop) (E : ε → ε → Prop) (L : κ → σ → ε → Prop) (a : κ)
    (s : σ) (out out' : List ε) (d d' : Session σ ε κ) : Prop where
  st : S d.st d'.st
  aux : d.aux = a
  aux' : d'.aux = a
  emitted : ∃ evs evs', d.out = out ++ evs ∧ d'.out = out' ++ evs' ∧ List.Forall₂ E evs evs' ∧
    Path apply (L a) s evs d.st

def Agreed (apply : σ → ε → Except η σ) (S : σ → σ → Prop) (E : ε → ε → Prop) (L : κ → σ → ε → Prop) (a : κ)
    (s : σ) (out out' : List ε) : EStateM.Result η (Session σ ε κ) α → EStateM.Result η (Session σ ε κ) α → Prop
  | .ok v d, .ok v' d' => v = v' ∧ InStep apply S E L a s out out' d d'
  | .error e _, .error e' _ => e = e'
  | _, _ => False

/-- Programs `m` from state `s` and `m'` from state `s'`, both with notes `a`. -/
def Agree (apply : σ → ε → Except η σ) (S : σ → σ → Prop) (E : ε → ε → Prop) (L : κ → σ → ε → Prop) (a : κ)
    (m m' : Prog η σ ε κ α) (s s' : σ) : Prop :=
  ∀ out out', Agreed apply S E L a s out out' (m ⟨s, out, a⟩) (m' ⟨s', out', a⟩)

namespace Agree

variable {m m' : Prog η σ ε κ α} {f f' : α → Prog η σ ε κ β} {s' : σ}

theorem pure (v : α) (h : S s s') : Agree apply S E L a (Pure.pure v) (Pure.pure v) s s' :=
  fun _ _ => ⟨rfl, h, rfl, rfl, [], [], by simp, by simp, .nil, .nil s⟩

theorem throw (e : η) : Agree apply S E L a (MonadExcept.throw e : Prog η σ ε κ α) (MonadExcept.throw e) s s' :=
  fun _ _ => rfl

theorem bind (hm : Agree apply S E L a m m' s s') (hf : ∀ v t t', S t t' → Agree apply S E L a (f v) (f' v) t t') :
    Agree apply S E L a (m >>= f) (m' >>= f') s s' := by
  intro out out'
  have hm := hm out out'
  show Agreed apply S E L a s out out' (EStateM.bind m f ⟨s, out, a⟩) (EStateM.bind m' f' ⟨s', out', a⟩)
  unfold EStateM.bind
  revert hm
  cases m ⟨s, out, a⟩ with
  | error e d =>
    cases m' ⟨s', out', a⟩ with
    | error e' d' => exact id
    | ok v' d' => exact False.elim
  | ok v d =>
    cases m' ⟨s', out', a⟩ with
    | error e' d' => exact False.elim
    | ok v' d' =>
      obtain ⟨st, mid, aux⟩ := d
      obtain ⟨st', mid', aux'⟩ := d'
      rintro ⟨rfl, hst, ha, ha', evs, evs', ho, ho', hE, hp⟩
      obtain ⟨rfl, rfl⟩ : aux = a ∧ aux' = a := ⟨ha, ha'⟩
      obtain ⟨rfl, rfl⟩ : mid = out ++ evs ∧ mid' = out' ++ evs' := ⟨ho, ho'⟩
      have hf := hf v st st' hst (out ++ evs) (out' ++ evs')
      revert hf
      show Agreed _ _ _ _ _ _ _ _ (f v _) (f' v _) → Agreed _ _ _ _ _ _ _ _ (f v _) (f' v _)
      cases f v ⟨st, out ++ evs, aux'⟩ with
      | error e₂ d₂ =>
        cases f' v ⟨st', out' ++ evs', aux'⟩ with
        | error e₂' d₂' => exact id
        | ok v₂' d₂' => exact False.elim
      | ok v₂ d₂ =>
        cases f' v ⟨st', out' ++ evs', aux'⟩ with
        | error e₂' d₂' => exact False.elim
        | ok v₂' d₂' =>
          rintro ⟨rfl, hst₂, ha, ha', evs₂, evs₂', ho, ho', hE₂, hp₂⟩
          exact ⟨rfl, hst₂, ha, ha', evs ++ evs₂, evs' ++ evs₂', by rw [ho, List.append_assoc],
            by rw [ho', List.append_assoc], List.rel_append hE hE₂, hp.append hp₂⟩

/-- Two events that are both refused, for the same reason, or both applied. -/
theorem emit {mk mk' : σ → ε} (h : (∃ e, apply s (mk s) = .error e ∧ apply s' (mk' s') = .error e) ∨
      ∃ t t', apply s (mk s) = .ok t ∧ apply s' (mk' s') = .ok t' ∧ S t t') (hE : E (mk s) (mk' s')) (hL : L a s (mk s)) :
    Agree apply S E L a (emitWith apply mk : Prog η σ ε κ Unit) (emitWith apply mk') s s' := by
  intro out out'
  rcases h with ⟨e, he, he'⟩ | ⟨t, t', ht, ht', hst⟩
  · simp only [emitWith, he, he']
    rfl
  · simp only [emitWith, ht, ht']
    exact ⟨rfl, hst, rfl, rfl, [mk s], [mk' s'], rfl, rfl, .cons hE .nil, .single hL ht⟩

theorem getSt {f f' : σ → Prog η σ ε κ β} (h : Agree apply S E L a (f s) (f' s') s s') :
    Agree apply S E L a (Emitter.getSt >>= f) (Emitter.getSt >>= f') s s' := h

theorem getAux {f f' : κ → Prog η σ ε κ β} (h : Agree apply S E L a (f a) (f' a) s s') :
    Agree apply S E L a (Emitter.getAux >>= f) (Emitter.getAux >>= f') s s' := h

end Agree

end

/-! ## Runs with known notes -/

section
variable {a : κ} {Q : α → κ → σ → Prop} {R : β → κ → σ → Prop} {H : σ → ε → Prop}

/-- Program `m` run from state `s` with notes `a`: the postcondition sees the notes at the end. -/
def RunsAs (apply : σ → ε → Except η σ) (G : σ → ε → Prop) (B : η → Prop) (a : κ) (m : Prog η σ ε κ α) (s : σ)
    (Q : α → κ → σ → Prop) : Prop :=
  ∀ out, match m ⟨s, out, a⟩ with
    | .ok v d => (∃ evs, d.out = out ++ evs ∧ Path apply G s evs d.st) ∧ Q v d.aux d.st
    | .error e _ => B e

namespace RunsAs

theorem pure {v : α} (h : Q v a s) : RunsAs apply G B a (Pure.pure v : Prog η σ ε κ α) s Q :=
  fun _ => ⟨⟨[], by simp, .nil s⟩, h⟩

theorem throw {e : η} (h : B e) : RunsAs apply G B a (MonadExcept.throw e : Prog η σ ε κ α) s Q := fun _ => h

theorem bind (hm : RunsAs apply G B a m s Q) (hf : ∀ v b s', Q v b s' → RunsAs apply G B b (f v) s' R) :
    RunsAs apply G B a (m >>= f) s R := by
  intro out
  have hm := hm out
  show (match EStateM.bind m f ⟨s, out, a⟩ with | .ok v d => _ | .error e _ => B e : Prop)
  unfold EStateM.bind
  revert hm
  cases m ⟨s, out, a⟩ with
  | error e d => exact id
  | ok v d =>
    rintro ⟨⟨evs, ho, hp⟩, hq⟩
    have hf := hf v d.aux d.st hq d.out
    revert hf
    show (match f v d with | .ok w d' => _ | .error e _ => B e : Prop) → (match f v d with | .ok w d' => _ | .error e _ => B e : Prop)
    cases f v d with
    | error e d' => exact id
    | ok w d' =>
      rintro ⟨⟨evs', ho', hp'⟩, hr⟩
      exact ⟨⟨evs ++ evs', by rw [ho', ho, List.append_assoc], hp.append hp'⟩, hr⟩

theorem getSt {f : σ → Prog η σ ε κ β} (h : RunsAs apply G B a (f s) s R) :
    RunsAs apply G B a (Emitter.getSt >>= f) s R := h

theorem setAux {f : Unit → Prog η σ ε κ β} {b : κ} (h : RunsAs apply G B b (f ()) s R) :
    RunsAs apply G B a (Emitter.setAux b >>= f) s R := h

theorem of_runs {Q : α → σ → Prop} (h : Runs apply G B m s Q) : RunsAs apply G B a m s fun v _ s' => Q v s' := by
  intro out
  have h := h out a
  revert h
  cases m ⟨s, out, a⟩ with
  | error e d => exact id
  | ok v d => exact id

/-- A run that meets its specification, and what it has in common with another. -/
theorem and_agree {S : σ → σ → Prop} {E : ε → ε → Prop} {L : κ → σ → ε → Prop} (h : RunsAs apply G B a m s Q)
    (h' : Agree apply S E L a m m s s) :
    RunsAs apply (fun s e => G s e ∧ L a s e) B a m s fun v b s' => b = a ∧ Q v b s' := by
  intro out
  have h := h out
  have h' := h' out out
  revert h h'
  cases m ⟨s, out, a⟩ with
  | error e d => exact fun hb _ => hb
  | ok v d =>
    rintro ⟨⟨evs, ho, hp⟩, hq⟩ ⟨-, -, ha, -, evs', -, ho', -, -, hp'⟩
    obtain rfl : evs = evs' := List.append_cancel_left (ho.symm.trans ho')
    exact ⟨⟨evs, ho, hp.and hp'⟩, ha, hq⟩

/-- What is invariant along the run sharpens its guard. -/
theorem sharpen {I : σ → Prop} (h : RunsAs apply G B a m s Q) (hI : I s)
    (step : ∀ s e s', I s → G s e → apply s e = .ok s' → I s') (hG : ∀ s e, I s → G s e → H s e) :
    RunsAs apply H B a m s fun v b s' => Q v b s' ∧ I s' := by
  intro out
  have h := h out
  revert h
  cases m ⟨s, out, a⟩ with
  | error e d => exact id
  | ok v d =>
    rintro ⟨⟨evs, ho, hp⟩, hq⟩
    exact ⟨⟨evs, ho, hp.sharpen step hG hI⟩, hq, hp.invariant step hI⟩

theorem mono {Q' : α → κ → σ → Prop} (h : RunsAs apply G B a m s Q) (hQ : ∀ v b s', Q v b s' → Q' v b s') :
    RunsAs apply G B a m s Q' := by
  intro out
  have h := h out
  revert h
  cases m ⟨s, out, a⟩ with
  | error e d => exact id
  | ok v d => exact fun ⟨hp, hq⟩ => ⟨hp, hQ _ _ _ hq⟩

end RunsAs

end

/-! ## Runs under an assumption on their events

`Runs` says what holds of every event; here a program is run under the assumption `A` about the events it turns out to
emit, and under a fact `p` about the state it starts from. `U` is what holds of the states either way. -/

section
variable {A : σ → ε → Prop} {U : σ → Prop} {p : Prop}

/-- Program `m` run from `s`: if `p` holds and every event it emits meets `A`, it ends in `Q`. -/
def Relies (apply : σ → ε → Except η σ) (A : σ → ε → Prop) (U : σ → Prop) (m : Prog η σ ε κ α) (s : σ) (p : Prop)
    (Q : α → σ → Prop) : Prop :=
  U s → ∀ out aux, match m { st := s, out, aux } with
    | .ok a d => U d.st ∧ ∃ evs, d.out = out ++ evs ∧ Replay.replay apply s evs = .ok d.st ∧ (Path apply A s evs d.st → p → Q a d.st)
    | .error _ _ => True

namespace Relies

theorem pure {a : α} (h : p → Q a s) : Relies apply A U (Pure.pure a : Prog η σ ε κ α) s p Q :=
  fun hU _ _ => ⟨hU, [], by simp, rfl, fun _ hp => h hp⟩

theorem throw (e : η) : Relies apply A U (MonadExcept.throw e : Prog η σ ε κ α) s p Q := fun _ _ _ => trivial

theorem mono {p' : Prop} {Q' : α → σ → Prop} (h : Relies apply A U m s p Q) (hp : p' → p) (hQ : ∀ a s', Q a s' → Q' a s') :
    Relies apply A U m s p' Q' := by
  intro hU out aux
  have h := h hU out aux
  revert h
  cases m { st := s, out, aux } with
  | error e d => exact id
  | ok a d => exact fun ⟨hU', evs, ho, hr, hq⟩ => ⟨hU', evs, ho, hr, fun hA hp' => hQ a d.st (hq hA (hp hp'))⟩

/-- What held at the start still did. -/
theorem frame (h : Relies apply A U m s p Q) : Relies apply A U m s p fun a s' => p ∧ Q a s' := by
  intro hU out aux
  have h := h hU out aux
  revert h
  cases m { st := s, out, aux } with
  | error e d => exact id
  | ok a d => exact fun ⟨hU', evs, ho, hr, hq⟩ => ⟨hU', evs, ho, hr, fun hA hp => ⟨hp, hq hA hp⟩⟩

theorem bind (hm : Relies apply A U m s p Q) (hf : ∀ a s', U s' → Relies apply A U (f a) s' (Q a s') R) :
    Relies apply A U (m >>= f) s p R := by
  intro hU out aux
  have hm := hm hU out aux
  show match EStateM.bind m f { st := s, out, aux } with | .ok a d => _ | .error _ _ => True
  unfold EStateM.bind
  revert hm
  cases m { st := s, out, aux } with
  | error e d => exact id
  | ok a d =>
    rintro ⟨hU', evs, ho, hr, hq⟩
    have hf := hf a d.st hU' hU' d.out d.aux
    revert hf
    show (match f a d with | .ok a d' => _ | .error _ _ => True) → match f a d with | .ok a d' => _ | .error _ _ => True
    cases f a d with
    | error e d' => exact id
    | ok b d' =>
      rintro ⟨hU'', evs', ho', hr', hq'⟩
      refine ⟨hU'', evs ++ evs', by rw [ho', ho, List.append_assoc], replay_append_ok hr hr', fun hA hp => ?_⟩
      obtain ⟨s', h₁, h₂⟩ := hA.split
      cases h₁.replay.symm.trans hr
      exact hq' h₂ (hq h₁ hp)

theorem getSt {f : σ → Prog η σ ε κ β} (h : Relies apply A U (f s) s p R) : Relies apply A U (Emitter.getSt >>= f) s p R := h

theorem getAux {f : κ → Prog η σ ε κ β} (h : ∀ aux, Relies apply A U (f aux) s p R) :
    Relies apply A U (Emitter.getAux >>= f) s p R := fun hU out aux => h aux hU out aux

theorem setAux {f : Unit → Prog η σ ε κ β} {a : κ} (h : Relies apply A U (f ()) s p R) :
    Relies apply A U (Emitter.setAux a >>= f) s p R := fun hU out _ => h hU out a

theorem emit {mk : σ → ε} {Q : Unit → σ → Prop} (hU : ∀ s', apply s (mk s) = .ok s' → U s → U s')
    (h : ∀ s', apply s (mk s) = .ok s' → A s (mk s) → p → Q () s') :
    Relies apply A U (emitWith apply mk : Prog η σ ε κ Unit) s p Q := by
  intro hs out aux
  cases ha : apply s (mk s) with
  | error e => simp only [emitWith, ha]
  | ok s' =>
    simp only [emitWith, ha]
    refine ⟨hU s' ha hs, [mk s], rfl, by simp [Replay.replay, ha], fun hA hp => h s' ha ?_ hp⟩
    cases hA with
    | cons guard _ _ => exact guard

/-- A run that needs no assumption. -/
theorem of_runs (h : U s → Runs apply G B m s fun _ s' => U s') (hQ : ∀ a s' evs, Path apply G s evs s' → p → Q a s') :
    Relies apply A U m s p Q := by
  intro hU out aux
  have h := h hU out aux
  revert h
  cases m { st := s, out, aux } with
  | error e d => exact fun _ => trivial
  | ok a d => exact fun ⟨⟨evs, ho, hp⟩, hU'⟩ => ⟨hU', evs, ho, hp.replay, fun _ hpre => hQ a d.st evs hp hpre⟩

end Relies

end

/-! ## What a run emits

`Runs` speaks of every event by itself; here the postcondition sees the whole list of them. -/

section
variable {P : α → σ → List ε → Prop} {R : β → σ → List ε → Prop}

/-- Program `m` run from `s`: it ends in a value, a state and a list of emitted events within `P`, or in an error
within `B`. -/
def Yields (B : η → Prop) (m : Prog η σ ε κ α) (s : σ) (P : α → σ → List ε → Prop) : Prop :=
  ∀ out aux, match m { st := s, out, aux } with
    | .ok a d => ∃ evs, d.out = out ++ evs ∧ P a d.st evs
    | .error e _ => B e

namespace Yields

theorem pure {a : α} (h : P a s []) : Yields B (Pure.pure a : Prog η σ ε κ α) s P := fun _ _ => ⟨[], by simp, h⟩

theorem throw {e : η} (h : B e) : Yields B (MonadExcept.throw e : Prog η σ ε κ α) s P := fun _ _ => h

theorem mono {P' : α → σ → List ε → Prop} (h : Yields B m s P) (hP : ∀ a s' evs, P a s' evs → P' a s' evs) : Yields B m s P' := by
  intro out aux
  have h := h out aux
  revert h
  cases m { st := s, out, aux } with
  | error e d => exact id
  | ok a d => exact fun ⟨evs, ho, hp⟩ => ⟨evs, ho, hP a d.st evs hp⟩

theorem bind (hm : Yields B m s P)
    (hf : ∀ a s' evs, P a s' evs → Yields B (f a) s' fun b s'' evs' => R b s'' (evs ++ evs')) : Yields B (m >>= f) s R := by
  intro out aux
  have hm := hm out aux
  show match EStateM.bind m f { st := s, out, aux } with | .ok a d => _ | .error e _ => B e
  unfold EStateM.bind
  revert hm
  cases m { st := s, out, aux } with
  | error e d => exact id
  | ok a d =>
    rintro ⟨evs, ho, hp⟩
    have hf := hf a d.st evs hp d.out d.aux
    revert hf
    show (match f a d with | .ok a d' => _ | .error e _ => B e) → match f a d with | .ok a d' => _ | .error e _ => B e
    cases f a d with
    | error e d' => exact id
    | ok b d' =>
      rintro ⟨evs', ho', hr⟩
      exact ⟨evs ++ evs', by rw [ho', ho, List.append_assoc], hr⟩

theorem getSt {f : σ → Prog η σ ε κ β} (h : Yields B (f s) s R) : Yields B (Emitter.getSt >>= f) s R := h

theorem getAux {f : κ → Prog η σ ε κ β} (h : ∀ aux, Yields B (f aux) s R) : Yields B (Emitter.getAux >>= f) s R :=
  fun out aux => h aux out aux

theorem setAux {f : Unit → Prog η σ ε κ β} {a : κ} (h : Yields B (f ()) s R) : Yields B (Emitter.setAux a >>= f) s R :=
  fun out _ => h out a

theorem emit {mk : σ → ε} {P : Unit → σ → List ε → Prop} (ok : ∀ s', apply s (mk s) = .ok s' → P () s' [mk s])
    (bad : ∀ e, apply s (mk s) = .error e → B e) : Yields B (emitWith apply mk : Prog η σ ε κ Unit) s P := by
  intro out aux
  cases h : apply s (mk s) with
  | ok s' =>
    simp only [emitWith, h]
    exact ⟨[mk s], rfl, ok s' h⟩
  | error e =>
    simp only [emitWith, h]
    exact bad e h

end Yields

end

variable {out : List ε} {d : Session σ ε κ}

theorem ran_ok {a : α} :
    Ran apply G B s out Q (.ok a d) ↔ (∃ evs, d.out = out ++ evs ∧ Path apply G s evs d.st) ∧ Q a d.st := Iff.rfl

/-- What a program emits first stays first. -/
theorem Runs.emit_first {mk : σ → ε} {f : Unit → Prog η σ ε κ β} (hf : ∀ s', apply s (mk s) = .ok s' → Runs apply G B (f ()) s' R)
    {aux : κ} {b : β} (h : (emitWith apply mk >>= f) { st := s, out, aux } = .ok b d) :
    ∃ evs, d.out = out ++ mk s :: evs := by
  change EStateM.bind _ _ _ = _ at h
  unfold EStateM.bind emitWith at h
  cases happly : apply s (mk s) with
  | error e =>
    simp only [happly] at h
    cases h
  | ok s' =>
    simp only [happly] at h
    have hrest := hf s' happly (out ++ [mk s]) aux
    rw [h] at hrest
    obtain ⟨evs, ho, -⟩ := (ran_ok.1 hrest).1
    exact ⟨evs, by simpa using ho⟩

theorem ran_error {e : η} : Ran apply G B s out Q (.error e d) ↔ B e := Iff.rfl

theorem Agreed.cases {S : σ → σ → Prop} {E : ε → ε → Prop} {L : κ → σ → ε → Prop} {a : κ} {out' : List ε}
    {r r' : EStateM.Result η (Session σ ε κ) α} (h : Agreed apply S E L a s out out' r r') :
    (∃ e d d', r = .error e d ∧ r' = .error e d') ∨
    ∃ v d d', r = .ok v d ∧ r' = .ok v d' ∧ InStep apply S E L a s out out' d d' := by
  cases r with
  | error e d =>
    cases r' with
    | error e' d' => cases h; exact .inl ⟨e, d, d', rfl, rfl⟩
    | ok v' d' => cases h
  | ok v d =>
    cases r' with
    | error e' d' => cases h
    | ok v' d' =>
      obtain ⟨rfl, hin⟩ := h
      exact .inr ⟨v, d, d', rfl, rfl, hin⟩

-- A program is reasoned about by the rules above, never by evaluating it.
attribute [irreducible] Ran Agreed

end Emitter
