import Mathlib

/-!
# Asking a list of sources in turn

Stateful computations that can fail, and the loop that asks an ordered list of sources until one of
them has an answer.  Each source is paired with a flag: an *authoritative* source ends the loop when
it has no answer.  What the loop does when a source fails is a parameter: it always remembers the
failure and goes on past an ordinary source, and `stopOnError` says whether a failure of an
authoritative source ends it.

The requests are recorded in the order in which they are made, so that one can speak of the sources
that were asked.
-/

namespace Ocx

open List

universe u

/-! ### Computations with a state that survives a failure -/

/-- A computation with a state that can fail. The state survives a failure. -/
abbrev Fallible (S ε : Type u) := ExceptT ε (StateM S)

section Fallible

variable {S ε α β : Type u}

def runAt (x : Fallible S ε α) (s : S) : Except ε α × S := StateT.run (ExceptT.run x) s

/-- Run, and continue whether or not it fails. -/
def attempt (x : Fallible S ε α) : Fallible S ε (Except ε α) :=
  ExceptT.mk (Except.ok <$> ExceptT.run x)

/-- A result that does not depend on the state. -/
def ofExcept (r : Except ε α) : Fallible S ε α := ExceptT.mk (pure r)

variable {x : Fallible S ε α} {s : S}

@[simp] theorem runAt_pure (a : α) : runAt (pure a : Fallible S ε α) s = (.ok a, s) := rfl

@[simp] theorem runAt_throw (e : ε) : runAt (throw e : Fallible S ε α) s = (.error e, s) := rfl

@[simp] theorem runAt_get : runAt (get : Fallible S ε S) s = (.ok s, s) := rfl

@[simp] theorem runAt_modify (f : S → S) :
    runAt (modify f : Fallible S ε PUnit) s = (.ok ⟨⟩, f s) := rfl

@[simp] theorem runAt_attempt : runAt (attempt x) s = (.ok (runAt x s).1, (runAt x s).2) := rfl

@[simp] theorem runAt_ofExcept (r : Except ε α) :
    runAt (ofExcept r : Fallible S ε α) s = (r, s) := rfl

theorem runAt_bind (f : α → Fallible S ε β) :
    runAt (x >>= f) s =
      match runAt x s with
      | (.ok a, s') => runAt (f a) s'
      | (.error e, s') => (.error e, s') := by
  unfold runAt ExceptT.run StateT.run
  simp only [bind, ExceptT.bind, ExceptT.mk, StateT.bind]
  rcases x s with ⟨r, s'⟩
  cases r <;> rfl

@[simp] theorem runAt_map (f : α → β) :
    runAt (f <$> x) s = ((runAt x s).1.map f, (runAt x s).2) := by
  unfold runAt ExceptT.run StateT.run
  show ExceptT.bind x (pure ∘ f) s = _
  simp only [ExceptT.bind, ExceptT.mk, bind, StateT.bind]
  rcases x s with ⟨r, s'⟩
  cases r <;> rfl

theorem exists_of_runAt_bind_eq_ok {f : α → Fallible S ε β} {b : β}
    (h : (runAt (x >>= f) s).1 = .ok b) :
    ∃ a s', runAt x s = (.ok a, s') ∧ (runAt (f a) s').1 = .ok b := by
  rw [runAt_bind] at h
  rcases hx : runAt x s with ⟨r, s'⟩
  rw [hx] at h
  cases r with
  | error e => exact absurd h (by simp)
  | ok a => exact ⟨a, s', rfl, h⟩

theorem runAt_bind_ok {a : α} {s' : S} (hx : runAt x s = (.ok a, s')) (f : α → Fallible S ε β) :
    runAt (x >>= f) s = runAt (f a) s' := by
  rw [runAt_bind, hx]

theorem runAt_bind_error {e : ε} {s' : S} (hx : runAt x s = (.error e, s'))
    (f : α → Fallible S ε β) : runAt (x >>= f) s = (.error e, s') := by
  rw [runAt_bind, hx]

end Fallible

/-! ### The loop -/

inductive Answer
  /-- It had what was asked for. -/
  | hit
  /-- It had not. -/
  | miss
  | failed
deriving DecidableEq

def answerOf {ε α : Type*} : Except ε (Option α) → Answer
  | .ok (some _) => .hit
  | .ok none => .miss
  | .error _ => .failed

/-- A request that was made to a source. -/
structure Request where
  authoritative : Bool
  answer : Answer
deriving DecidableEq

/-- An authoritative source was asked and did not have what was asked for. -/
def Request.Declined (r : Request) : Prop := r.authoritative = true ∧ r.answer ≠ .hit

/-- A state together with the requests made so far. -/
structure Traced (S : Type u) where
  state : S
  requests : List Request

section Consult

variable {S ε α β : Type u} {σ : Type*}

/-- Run a computation that makes no request. -/
def untraced (x : Fallible S ε α) : Fallible (Traced S) ε α :=
  ExceptT.mk fun t => ((runAt x t.state).1, { t with state := (runAt x t.state).2 })

@[simp] theorem runAt_untraced (x : Fallible S ε α) (t : Traced S) :
    runAt (untraced x) t = ((runAt x t.state).1, { t with state := (runAt x t.state).2 }) := rfl

/-- Ask a source, and record the request. -/
def request (authoritative : Bool) (ask : Fallible S ε (Option α)) :
    Fallible (Traced S) ε (Except ε (Option α)) := do
  let answer ← attempt (untraced ask)
  modify fun t => { t with requests := t.requests ++ [⟨authoritative, answerOf answer⟩] }
  pure answer

/-- Ask the sources in turn. The first answer is handed to `onHit`; an authoritative source without
an answer ends the loop with `onStop`; failures are remembered, and the last one is the result when
no source has an answer. -/
def consult (stopOnError : Bool) (ask : σ → Fallible S ε (Option α))
    (onHit : σ → α → Fallible S ε β) (onStop : σ → Fallible S ε PUnit) :
    List (σ × Bool) → Option ε → Fallible (Traced S) ε (Option β)
  | [], none => pure none
  | [], some e => throw e
  | (source, authoritative) :: rest, lastError => do
    match ← request authoritative (ask source) with
    | .ok (some a) => some <$> untraced (onHit source a)
    | .ok none =>
      if authoritative then do
        untraced (onStop source)
        pure none
      else consult stopOnError ask onHit onStop rest lastError
    | .error e =>
      if authoritative && stopOnError then throw e
      else consult stopOnError ask onHit onStop rest (some e)

end Consult

section Consult

variable {S ε α β : Type u} {σ : Type*} {stopOnError : Bool} {ask : σ → Fallible S ε (Option α)}
  {onHit : σ → α → Fallible S ε β} {onStop : σ → Fallible S ε PUnit} {source : σ}
  {authoritative : Bool} {rest : List (σ × Bool)} {lastError : Option ε} {t : Traced S}

theorem runAt_request (x : Fallible S ε (Option α)) :
    runAt (request authoritative x) t =
      (.ok (runAt x t.state).1,
        ⟨(runAt x t.state).2, t.requests ++ [⟨authoritative, answerOf (runAt x t.state).1⟩]⟩) := by
  rfl

theorem consult_cons :
    consult stopOnError ask onHit onStop ((source, authoritative) :: rest) lastError =
      (request authoritative (ask source) >>= fun
        | .ok (some a) => some <$> untraced (onHit source a)
        | .ok none =>
          if authoritative then untraced (onStop source) >>= fun _ => pure none
          else consult stopOnError ask onHit onStop rest lastError
        | .error e =>
          if authoritative && stopOnError then throw e
          else consult stopOnError ask onHit onStop rest (some e)) := rfl

theorem runAt_consult_hit {a : α} {s' : S} (h : runAt (ask source) t.state = (.ok (some a), s')) :
    runAt (consult stopOnError ask onHit onStop ((source, authoritative) :: rest) lastError) t =
      ((runAt (onHit source a) s').1.map some,
        ⟨(runAt (onHit source a) s').2, t.requests ++ [⟨authoritative, .hit⟩]⟩) := by
  rw [consult_cons, runAt_bind, runAt_request, h]
  simp only [runAt_map, runAt_untraced]
  rfl

theorem runAt_consult_miss {s' : S} (h : runAt (ask source) t.state = (.ok none, s')) :
    runAt (consult stopOnError ask onHit onStop ((source, authoritative) :: rest) lastError) t =
      if authoritative then
        ((runAt (onStop source) s').1.map fun _ => none,
          ⟨(runAt (onStop source) s').2, t.requests ++ [⟨authoritative, .miss⟩]⟩)
      else runAt (consult stopOnError ask onHit onStop rest lastError)
        ⟨s', t.requests ++ [⟨authoritative, .miss⟩]⟩ := by
  rw [consult_cons, runAt_bind, runAt_request, h]
  cases authoritative with
  | false => rfl
  | true =>
    simp only [if_true, runAt_bind, runAt_untraced]
    rcases runAt (onStop source) s' with ⟨r, s''⟩
    cases r <;> rfl

theorem runAt_consult_failed {e : ε} {s' : S} (h : runAt (ask source) t.state = (.error e, s')) :
    runAt (consult stopOnError ask onHit onStop ((source, authoritative) :: rest) lastError) t =
      if authoritative && stopOnError then
        (.error e, ⟨s', t.requests ++ [⟨authoritative, .failed⟩]⟩)
      else runAt (consult stopOnError ask onHit onStop rest (some e))
        ⟨s', t.requests ++ [⟨authoritative, .failed⟩]⟩ := by
  rw [consult_cons, runAt_bind, runAt_request, h]
  cases authoritative <;> cases stopOnError <;> rfl

/-- What the loop returns is what `onHit` made of an answer. -/
theorem exists_of_consult_eq_ok {l : List (σ × Bool)} {y : β}
    (h : (runAt (consult stopOnError ask onHit onStop l lastError) t).1 = .ok (some y)) :
    ∃ source a s, (runAt (onHit source a) s).1 = .ok y := by
  induction l generalizing t lastError with
  | nil => cases lastError <;> cases h
  | cons c rest ih =>
    obtain ⟨source, authoritative⟩ := c
    rcases hask : runAt (ask source) t.state with ⟨e | _ | a, s'⟩
    · rw [runAt_consult_failed hask] at h
      split at h
      · cases h
      · exact ih h
    · rw [runAt_consult_miss hask] at h
      split at h
      · cases hstop : (runAt (onStop source) s').1 <;> simp [hstop, Except.map] at h
      · exact ih h
    · rw [runAt_consult_hit hask] at h
      refine ⟨source, a, s', ?_⟩
      cases hhit : (runAt (onHit source a) s').1 <;> simp_all [Except.map]

/-- **No answer after a refusal.** When failures of authoritative sources stop the loop, it has no
answer once an authoritative source was asked and had none. -/
theorem consult_respects (l : List (σ × Bool)) :
    ∃ new, (runAt (consult true ask onHit onStop l lastError) t).2.requests = t.requests ++ new ∧
      ((∃ r ∈ new, r.Declined) →
        ∀ y, (runAt (consult true ask onHit onStop l lastError) t).1 ≠ .ok (some y)) := by
  induction l generalizing lastError t with
  | nil =>
    refine ⟨[], ?_, by simp⟩
    cases lastError <;> simp [consult]
  | cons c rest ih =>
    obtain ⟨source, authoritative⟩ := c
    rcases hask : runAt (ask source) t.state with ⟨r, s'⟩
    cases r with
    | error e =>
      rw [runAt_consult_failed hask, Bool.and_true]
      cases authoritative with
      | true => exact ⟨[⟨true, .failed⟩], rfl, fun _ y => by simp⟩
      | false =>
        obtain ⟨new, hnew, hrespects⟩ := @ih (some e) ⟨s', t.requests ++ [⟨false, .failed⟩]⟩
        refine ⟨⟨false, .failed⟩ :: new, by simpa using hnew, fun h => hrespects ?_⟩
        simpa [Request.Declined] using h
    | ok answer =>
      cases answer with
      | some a =>
        rw [runAt_consult_hit hask]
        exact ⟨[⟨authoritative, .hit⟩], rfl, by simp [Request.Declined]⟩
      | none =>
        rw [runAt_consult_miss hask]
        cases authoritative with
        | true =>
          refine ⟨[⟨true, .miss⟩], rfl, fun _ y => ?_⟩
          cases (runAt (onStop source) s').1 <;> simp [Except.map]
        | false =>
          obtain ⟨new, hnew, hrespects⟩ := @ih lastError ⟨s', t.requests ++ [⟨false, .miss⟩]⟩
          refine ⟨⟨false, .miss⟩ :: new, by simpa using hnew, fun h => hrespects ?_⟩
          simpa [Request.Declined] using h

end Consult

/-! ### Bypassed sources -/

section Bypass

variable {S ε α β : Type u} {σ : Type*} (answer : σ → Except ε (Option α)) (valid : α → Prop)

/-- A loop that does not stop at failures goes on after this source. -/
def Passes (c : σ × Bool) : Prop :=
  (∃ e, answer c.1 = .error e) ∨ (answer c.1 = .ok none ∧ c.2 = false)

/-- Such a loop gets to a source with a valid answer. -/
def Answered (l : List (σ × Bool)) : Prop :=
  ∃ before c after a, l = before ++ c :: after ∧ (∀ d ∈ before, Passes answer d) ∧
    answer c.1 = .ok (some a) ∧ valid a

/-- Such a loop gets to a source with a valid answer, past an authoritative source: that one
failed. -/
def Bypassed (l : List (σ × Bool)) : Prop :=
  ∃ before c after a, l = before ++ c :: after ∧ (∀ d ∈ before, Passes answer d) ∧
    (∃ d ∈ before, d.2 = true) ∧ answer c.1 = .ok (some a) ∧ valid a

variable {answer valid} {c : σ × Bool} {l : List (σ × Bool)}

theorem not_answered_nil : ¬ Answered answer valid [] := by
  rintro ⟨before, c, after, a, h, -⟩
  simp at h

theorem not_bypassed_nil : ¬ Bypassed answer valid [] := by
  rintro ⟨before, c, after, a, h, -⟩
  simp at h

theorem answered_cons : Answered answer valid (c :: l) ↔
    (∃ a, answer c.1 = .ok (some a) ∧ valid a) ∨ (Passes answer c ∧ Answered answer valid l) := by
  constructor
  · rintro ⟨before, d, after, a, h, hpass, hd, ha⟩
    cases before with
    | nil =>
      obtain ⟨rfl, rfl⟩ := cons.inj h
      exact .inl ⟨a, hd, ha⟩
    | cons b before =>
      obtain ⟨rfl, rfl⟩ := cons.inj h
      rw [forall_mem_cons] at hpass
      exact .inr ⟨hpass.1, before, d, after, a, rfl, hpass.2, hd, ha⟩
  · rintro (⟨a, hc, ha⟩ | ⟨hc, before, d, after, a, rfl, hpass, hd, ha⟩)
    · exact ⟨[], c, l, a, rfl, by simp, hc, ha⟩
    · exact ⟨c :: before, d, after, a, rfl, forall_mem_cons.2 ⟨hc, hpass⟩, hd, ha⟩

theorem bypassed_cons : Bypassed answer valid (c :: l) ↔
    Passes answer c ∧ ((c.2 = true ∧ Answered answer valid l) ∨ Bypassed answer valid l) := by
  constructor
  · rintro ⟨before, d, after, a, h, hpass, ⟨b, hb, hauth⟩, hd, ha⟩
    cases before with
    | nil => simp at hb
    | cons b' before =>
      obtain ⟨rfl, rfl⟩ := cons.inj h
      rw [forall_mem_cons] at hpass
      refine ⟨hpass.1, ?_⟩
      cases hb with
      | head => exact .inl ⟨hauth, before, d, after, a, rfl, hpass.2, hd, ha⟩
      | tail _ hb => exact .inr ⟨before, d, after, a, rfl, hpass.2, ⟨b, hb, hauth⟩, hd, ha⟩
  · rintro ⟨hc, ⟨hauth, before, d, after, a, rfl, hpass, hd, ha⟩ |
      ⟨before, d, after, a, rfl, hpass, ⟨b, hb, hauth⟩, hd, ha⟩⟩
    · exact ⟨c :: before, d, after, a, rfl, forall_mem_cons.2 ⟨hc, hpass⟩,
        ⟨c, mem_cons_self, hauth⟩, hd, ha⟩
    · exact ⟨c :: before, d, after, a, rfl, forall_mem_cons.2 ⟨hc, hpass⟩,
        ⟨b, mem_cons_of_mem _ hb, hauth⟩, hd, ha⟩

variable {ask : σ → Fallible S ε (Option α)} {onHit : σ → α → Fallible S ε β}
    {onStop : σ → Fallible S ε PUnit}
  {lastError : Option ε} {t : Traced S}

/-- **What a bypass is.** When failures never stop the loop, it has an answer after an authoritative
source was asked and had none exactly when a failed authoritative source is bypassed. -/
theorem consult_bypassed_iff (hask : ∀ source s, runAt (ask source) s = (answer source, s))
    (hvalid : ∀ source a s, (∃ y, (runAt (onHit source a) s).1 = .ok y) ↔ valid a)
    (l : List (σ × Bool)) :
    ∃ new,
      (runAt (consult false ask onHit onStop l lastError) t).2.requests =
        t.requests ++ new ∧
      ((∃ y, (runAt (consult false ask onHit onStop l lastError) t).1 =
        .ok (some y)) ↔ Answered answer valid l) ∧
      (((∃ r ∈ new, r.Declined) ∧
        ∃ y, (runAt (consult false ask onHit onStop l lastError) t).1 =
          .ok (some y)) ↔ Bypassed answer valid l) := by
  induction l generalizing lastError t with
  | nil =>
    refine ⟨[], ?_, ?_, ?_⟩
    · cases lastError <;> simp [consult]
    · cases lastError <;> simp [consult, not_answered_nil]
    · cases lastError <;> simp [consult, not_bypassed_nil]
  | cons c rest ih =>
    obtain ⟨source, authoritative⟩ := c
    rw [answered_cons, bypassed_cons]
    cases hanswer : answer source with
    | error e =>
      have hrun : runAt (ask source) t.state = (.error e, t.state) := by rw [hask, hanswer]
      rw [runAt_consult_failed hrun, Bool.and_false, if_neg Bool.false_ne_true]
      obtain ⟨new, hnew, hanswered, hbypassed⟩ :=
        @ih (some e) ⟨t.state, t.requests ++ [⟨authoritative, .failed⟩]⟩
      have hpass : Passes answer (source, authoritative) := .inl ⟨e, hanswer⟩
      refine ⟨⟨authoritative, .failed⟩ :: new, by simpa using hnew, ?_, ?_⟩
      · rw [hanswered]
        simp [hpass]
      · rw [← hbypassed, ← hanswered]
        simp only [hpass, true_and, Request.Declined]
        cases authoritative <;> simp
    | ok found =>
      have hrun : runAt (ask source) t.state = (.ok found, t.state) := by rw [hask, hanswer]
      cases found with
      | some a =>
        have hnot : ¬ Passes answer (source, authoritative) := by simp [Passes, hanswer]
        rw [runAt_consult_hit hrun]
        refine ⟨[⟨authoritative, .hit⟩], rfl, ?_, by simp [Request.Declined, hnot]⟩
        simp only [hnot, false_and, or_false, Except.ok.injEq, Option.some.injEq,
          exists_eq_left']
        rw [← hvalid source a t.state]
        cases (runAt (onHit source a) t.state).1 <;> simp [Except.map]
      | none =>
        rw [runAt_consult_miss hrun]
        cases authoritative with
        | true =>
          have hnot : ¬ Passes answer (source, true) := by simp [Passes, hanswer]
          refine ⟨[⟨true, .miss⟩], rfl, ?_, ?_⟩
          · simp only [if_true, hnot, false_and, or_false]
            cases (runAt (onStop source) t.state).1 <;> simp [Except.map]
          · simp only [if_true, hnot, false_and, iff_false, not_and]
            cases (runAt (onStop source) t.state).1 <;> simp [Except.map]
        | false =>
          have hpass : Passes answer (source, false) := .inr ⟨hanswer, rfl⟩
          obtain ⟨new, hnew, hanswered, hbypassed⟩ :=
            @ih lastError ⟨t.state, t.requests ++ [⟨false, .miss⟩]⟩
          refine ⟨⟨false, .miss⟩ :: new, by simpa using hnew, ?_, ?_⟩
          · simp only [Bool.false_eq_true, if_false]
            rw [hanswered]
            simp [hpass]
          · rw [← hbypassed]
            simp [hpass, Request.Declined]

end Bypass

end Ocx
