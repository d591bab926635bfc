import Mathlib

/-!
# Interleaved programs

Programs that share a store and take turns in any order. A program is at a *point*; one step reads
and writes the store and goes to another point, or fails. A run is a list that says whose turn it
is.
-/

namespace Ocx

/-- A shared store, and the point of every program. -/
structure World (σ ι π : Type*) where
  store : σ
  /-- Where every program is. -/
  point : ι → π

namespace World

variable {σ ι π : Type*} [DecidableEq ι] (advance : ι → π → σ → Option (π × σ))

/-- The turn of a program. -/
def step (w : World σ ι π) (i : ι) : Option (World σ ι π) :=
  (advance i (w.point i) w.store).map fun next => ⟨next.2, Function.update w.point i next.1⟩

/-- Programs take turns. -/
def run (w : World σ ι π) (schedule : List ι) : Option (World σ ι π) :=
  schedule.foldlM (step advance) w

variable {advance} {w w' : World σ ι π} {i : ι}

theorem step_eq_some_iff :
    w.step advance i = some w' ↔
      advance i (w.point i) w.store = some (w'.point i, w'.store) ∧
        ∀ j, j ≠ i → w'.point j = w.point j := by
  rw [step, Option.map_eq_some_iff]
  constructor
  · rintro ⟨⟨p, s⟩, hadvance, rfl⟩
    refine ⟨?_, fun j hj => Function.update_of_ne hj _ _⟩
    simp [hadvance]
  · rintro ⟨hadvance, hothers⟩
    refine ⟨_, hadvance, ?_⟩
    cases w' with
    | mk store point =>
      congr 1
      funext j
      by_cases hj : j = i
      · rw [hj, Function.update_self]
      · rw [Function.update_of_ne hj]
        exact (hothers j hj).symm

/-- Every turn of a run meets a guard where it happens. -/
def Guarded (advance : ι → π → σ → Option (π × σ)) (guard : World σ ι π → ι → Prop) :
    World σ ι π → List ι → Prop
  | _, [] => True
  | w, i :: rest => guard w i ∧
    match w.step advance i with
    | some w' => Guarded advance guard w' rest
    | none => True

instance Guarded.decidable (guard : World σ ι π → ι → Prop) [∀ w i, Decidable (guard w i)] :
    ∀ (w : World σ ι π) (schedule : List ι), Decidable (Guarded advance guard w schedule)
  | _, [] => .isTrue trivial
  | w, i :: rest =>
    have : Decidable (match w.step advance i with
        | some w' => Guarded advance guard w' rest
        | none => True) :=
      match w.step advance i with
      | some w' => decidable guard w' rest
      | none => .isTrue trivial
    inferInstanceAs (Decidable (guard w i ∧ _))

theorem Guarded.invariant {guard : World σ ι π → ι → Prop} {schedule : List ι}
    (hguard : Guarded advance guard w schedule) (h : w.run advance schedule = some w')
    (motive : World σ ι π → Prop) (hstart : motive w)
    (hstep : ∀ w i w', guard w i → motive w → w.step advance i = some w' → motive w') :
    motive w' := by
  induction schedule generalizing w with
  | nil =>
    cases h
    exact hstart
  | cons i schedule ih =>
    obtain ⟨w₁, hw₁, hrest⟩ := Option.bind_eq_some_iff.1 h
    rw [Guarded, hw₁] at hguard
    exact ih hguard.2 hrest (hstep w i w₁ hguard.1 hstart hw₁)

theorem guarded_true (w : World σ ι π) (schedule : List ι) :
    Guarded advance (fun _ _ => True) w schedule := by
  induction schedule generalizing w with
  | nil => trivial
  | cons i schedule ih =>
    refine ⟨trivial, ?_⟩
    split
    · exact ih _
    · trivial

theorem run_invariant {schedule : List ι} (h : w.run advance schedule = some w')
    (motive : World σ ι π → Prop) (hstart : motive w)
    (hstep : ∀ w i w', motive w → w.step advance i = some w' → motive w') : motive w' := by
  exact (guarded_true w schedule).invariant h motive hstart fun w i w' _ => hstep w i w'

end World

end Ocx
