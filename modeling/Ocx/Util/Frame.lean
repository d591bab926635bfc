import Ocx.Util.Consult

/-!
# What a computation leaves alone

`Keeps P R x` says that from every state with `P` the computation `x` ends in a state that `R`
relates to the one it began in.  When `R` is a preorder and `P` is closed under it, the rule is
compositional: a sequence keeps what its parts keep, whether or not they fail.
-/

namespace Ocx

universe u

variable {S ε α β : Type u} {P : S → Prop} {R : S → S → Prop}

/-- A preorder on states, and a condition that is closed under it. -/
structure Frame (P : S → Prop) (R : S → S → Prop) : Prop where
  /-- A state is related to itself. -/
  refl : ∀ s, R s s
  /-- The relation is transitive. -/
  trans : ∀ {s s' s'' : S}, R s s' → R s' s'' → R s s''
  /-- The condition is closed under the relation. -/
  closed : ∀ {s s' : S}, R s s' → P s → P s'

/-- From every state with `P`, the computation ends in a state related to it by `R`. -/
def Keeps (P : S → Prop) (R : S → S → Prop) (x : Fallible S ε α) : Prop :=
  ∀ s, P s → R s (runAt x s).2

/-- A first part that goes from `P` by `Q` leads to `P'`, from where the rest goes on by `R`. -/
structure Leads (P : S → Prop) (Q : S → S → Prop) (P' : S → Prop) (R : S → S → Prop) : Prop where
  frame : Frame P' R
  post : ∀ {s s' : S}, P s → Q s s' → P' s'
  trans : ∀ {s s' s'' : S}, Q s s' → R s' s'' → Q s s''

variable {P' : S → Prop} {Q : S → S → Prop}

theorem Frame.leads (h : Frame P R) : Leads P R P R :=
  ⟨h, fun hs hfirst => h.closed hfirst hs, h.trans⟩

/-- The condition on the state of a traced computation. -/
def Traced.Holds (P : S → Prop) (t : Traced S) : Prop := P t.state

/-- The relation between the states of a traced computation. -/
def Traced.Related (R : S → S → Prop) (t t' : Traced S) : Prop := R t.state t'.state

theorem Frame.traced (h : Frame P R) : Frame (Traced.Holds P) (Traced.Related R) where
  refl t := h.refl t.state
  trans := h.trans
  closed := h.closed

theorem Leads.traced (h : Leads P Q P' R) :
    Leads (Traced.Holds P) (Traced.Related Q) (Traced.Holds P') (Traced.Related R) :=
  ⟨h.frame.traced, h.post, h.trans⟩

namespace Keeps

variable {x : Fallible S ε α}

theorem pure (h : Frame P R) (a : α) : Keeps P R (Pure.pure a : Fallible S ε α) :=
  fun s _ => h.refl s

theorem throw (h : Frame P R) (e : ε) : Keeps P R (MonadExcept.throw e : Fallible S ε α) :=
  fun s _ => h.refl s

theorem get (h : Frame P R) : Keeps P R (MonadState.get : Fallible S ε S) :=
  fun s _ => h.refl s

theorem ofExcept (h : Frame P R) (r : Except ε α) :
    Keeps P R (Ocx.ofExcept r : Fallible S ε α) :=
  fun s _ => h.refl s

theorem andThen (h : Leads P Q P' R) (hx : Keeps P Q x) {k : α → Fallible S ε β}
    (hk : ∀ a, Keeps P' R (k a)) : Keeps P Q (x >>= k) := by
  intro s hs
  have hfirst := hx s hs
  rw [runAt_bind]
  rcases hrun : runAt x s with ⟨r, s'⟩
  rw [hrun] at hfirst
  cases r with
  | error e => exact hfirst
  | ok a => exact h.trans hfirst (hk a s' (h.post hs hfirst))

theorem bind (h : Frame P R) (hx : Keeps P R x) {k : α → Fallible S ε β}
    (hk : ∀ a, Keeps P R (k a)) : Keeps P R (x >>= k) :=
  andThen h.leads hx hk

theorem map (hx : Keeps P R x) (f : α → β) : Keeps P R (f <$> x) := by
  intro s hs
  rw [runAt_map]
  exact hx s hs

theorem attempt (hx : Keeps P R x) : Keeps P R (Ocx.attempt x) := fun s hs => hx s hs

theorem ite {p : Prop} [Decidable p] {y : Fallible S ε α} (hx : p → Keeps P R x)
    (hy : ¬ p → Keeps P R y) : Keeps P R (if p then x else y) := by
  split
  · exact hx ‹_›
  · exact hy ‹_›

theorem untraced (hx : Keeps P R x) :
    Keeps (Traced.Holds P) (Traced.Related R) (Ocx.untraced x) :=
  fun t ht => hx t.state ht

theorem consult (h : Frame P R) {σ : Type*} {ask : σ → Fallible S ε (Option α)}
    {onHit : σ → α → Fallible S ε β} {onStop : σ → Fallible S ε PUnit}
    (hask : ∀ source, Keeps P R (ask source)) (hhit : ∀ source a, Keeps P R (onHit source a))
    (hstop : ∀ source, Keeps P R (onStop source)) (stopOnError : Bool) (l : List (σ × Bool))
    (lastError : Option ε) :
    Keeps (Traced.Holds P) (Traced.Related R)
      (Ocx.consult stopOnError ask onHit onStop l lastError) := by
  induction l generalizing lastError with
  | nil => cases lastError <;> exact fun t _ => h.refl t.state
  | cons c rest ih =>
    obtain ⟨source, authoritative⟩ := c
    rw [consult_cons]
    have hrequest : Keeps (Traced.Holds P) (Traced.Related R)
        (request authoritative (ask source)) := by
      intro t ht
      rw [runAt_request]
      exact hask source t.state ht
    refine bind h.traced hrequest fun answer => ?_
    rcases answer with e | _ | a
    · dsimp only
      split
      · exact throw h.traced e
      · exact ih (some e)
    · dsimp only
      split
      · exact bind h.traced (hstop source).untraced fun _ => pure h.traced none
      · exact ih lastError
    · exact (hhit source a).untraced.map some

end Keeps

end Ocx
