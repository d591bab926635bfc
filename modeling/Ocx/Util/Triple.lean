import Ocx.Util.Consult

/-!
# Pre- and postconditions of fallible computations

`Meets P x Q E` says that from every state with `P` the computation `x` either succeeds with a
result and a state that satisfy `Q`, or fails with an error and a state that satisfy `E`. Nothing is
lost in a failure, so the postcondition of a failure speaks of the state as well.
-/

namespace Ocx

universe u

variable {S ε α β γ : Type u}

/-- From every state with `P`, a success ends with `Q` and a failure with `E`. -/
def Meets (P : S → Prop) (x : Fallible S ε α) (Q : α → S → Prop) (E : ε → S → Prop) : Prop :=
  ∀ s, P s → match runAt x s with
    | (.ok a, s') => Q a s'
    | (.error e, s') => E e s'

namespace Meets

variable {P P' : S → Prop} {x : Fallible S ε α} {Q Q' : α → S → Prop} {E E' : ε → S → Prop}

theorem pure {a : α} (h : ∀ s, P s → Q a s) : Meets P (Pure.pure a : Fallible S ε α) Q E := h

theorem throw {e : ε} (h : ∀ s, P s → E e s) :
    Meets P (MonadExcept.throw e : Fallible S ε α) Q E := h

theorem get {Q : S → S → Prop} (h : ∀ s, P s → Q s s) :
    Meets P (MonadState.get : Fallible S ε S) Q E := h

theorem modify {Q : PUnit → S → Prop} {f : S → S} (h : ∀ s, P s → Q ⟨⟩ (f s)) :
    Meets P (modify f : Fallible S ε PUnit) Q E := h

theorem conseq (h : Meets P x Q E) (hP : ∀ s, P' s → P s) (hQ : ∀ a s, Q a s → Q' a s)
    (hE : ∀ e s, E e s → E' e s) : Meets P' x Q' E' := by
  intro s hs
  have hrun := h s (hP s hs)
  rcases hx : runAt x s with ⟨r, s'⟩
  rw [hx] at hrun
  cases r with
  | ok a => exact hQ a s' hrun
  | error e => exact hE e s' hrun

theorem of_pre (h : ∀ s, P s → Meets (· = s) x Q E) : Meets P x Q E :=
  fun s hs => h s hs s rfl

/-- **Sequencing.** A failure of the first part is a failure of the whole. -/
theorem bind {f : α → Fallible S ε β} {T : β → S → Prop} (hx : Meets P x Q E)
    (hf : ∀ a, Meets (Q a) (f a) T E) : Meets P (x >>= f) T E := by
  intro s hs
  have hfirst := hx s hs
  rw [runAt_bind]
  rcases hrun : runAt x s with ⟨r, s'⟩
  rw [hrun] at hfirst
  cases r with
  | ok a => exact hf a s' hfirst
  | error e => exact hfirst

theorem ite {c : Prop} [Decidable c] {y : Fallible S ε α} (hx : c → Meets P x Q E)
    (hy : ¬ c → Meets P y Q E) : Meets P (if c then x else y) Q E := by
  split
  exacts [hx ‹_›, hy ‹_›]

/-- **A loop that collects.** The invariant relates what was visited and collected so far. -/
theorem mapM {f : γ → Fallible S ε α} (J : List γ → List α → S → Prop) (l : List γ)
    (hf : ∀ done collected, ∀ c ∈ l, Meets (J done collected) (f c)
      (fun a => J (done ++ [c]) (collected ++ [a])) E) :
    Meets (J [] []) (l.mapM f) (J l) E := by
  suffices h : ∀ (rest done : List γ) (collected : List α), (∀ c ∈ rest, c ∈ l) →
      Meets (J done collected) (rest.mapM f) (fun as => J (done ++ rest) (collected ++ as)) E by
    simpa using h l [] [] fun _ hc => hc
  intro rest
  induction rest with
  | nil =>
    intro done collected _
    exact Meets.pure fun s hs => by simpa using hs
  | cons c rest ih =>
    intro done collected hrest
    rw [List.mapM_cons]
    refine (hf done collected c (hrest c List.mem_cons_self)).bind fun a => ?_
    refine (ih (done ++ [c]) (collected ++ [a]) fun d hd =>
      hrest d (List.mem_cons_of_mem _ hd)).bind fun as => ?_
    exact Meets.pure fun s hs => by simpa using hs

/-- **A loop.** The invariant speaks of what was visited so far. -/
theorem forM {f : γ → Fallible S ε PUnit} (J : List γ → S → Prop) (l : List γ)
    (hf : ∀ done rest c, l = done ++ c :: rest →
      Meets (J done) (f c) (fun _ => J (done ++ [c])) E) :
    Meets (J []) (l.forM f) (fun _ => J l) E := by
  suffices h : ∀ rest done : List γ, l = done ++ rest →
      Meets (J done) (rest.forM f) (fun _ => J l) E from h l [] rfl
  intro rest
  induction rest with
  | nil =>
    rintro done hl
    rw [List.append_nil] at hl
    subst hl
    exact Meets.pure fun s hs => hs
  | cons c rest ih =>
    intro done hl
    show Meets (J done) (f c >>= fun _ => rest.forM f) (fun _ => J l) E
    exact (hf done rest c hl).bind fun _ => ih (done ++ [c]) (by simpa using hl)

end Meets

end Ocx
