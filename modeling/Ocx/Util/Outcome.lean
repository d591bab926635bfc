import Mathlib

/-!
# Fallible results

Rules that take a compound computation in `Except` apart: what its steps gave when it succeeds, and
which step failed when it fails.
-/

namespace Ocx

open List

universe u v

variable {ε : Type v} {α β : Type u}

variable {f : α → Except ε β} {x : Except ε α} {l : List α}

theorem bind_eq_ok_iff {b : β} :
    (x >>= f) = .ok b ↔ ∃ a, x = .ok a ∧ f a = .ok b := by
  cases x <;> simp [bind, Except.bind]

theorem bind_eq_error_iff {e : ε} :
    (x >>= f) = .error e ↔ x = .error e ∨ ∃ a, x = .ok a ∧ f a = .error e := by
  cases x <;> simp [bind, Except.bind]

theorem forM_eq_ok_iff {f : α → Except ε PUnit} :
    forM l f = .ok ⟨⟩ ↔ ∀ a ∈ l, f a = .ok ⟨⟩ := by
  induction l with
  | nil => simp [pure, Except.pure]
  | cons a l ih =>
    rw [forM_cons, bind_eq_ok_iff, forall_mem_cons, ← ih]
    exact ⟨fun ⟨_, ha, hl⟩ => ⟨ha, hl⟩, fun ⟨ha, hl⟩ => ⟨⟨⟩, ha, hl⟩⟩

theorem forall₂_of_mapM_eq_ok {bs : List β}
    (h : l.mapM f = .ok bs) : List.Forall₂ (fun a b => f a = .ok b) l bs := by
  induction l generalizing bs with
  | nil =>
    simp only [mapM_nil, pure, Except.pure, Except.ok.injEq] at h
    exact h ▸ .nil
  | cons a l ih =>
    rw [mapM_cons] at h
    obtain ⟨b, hb, h⟩ := bind_eq_ok_iff.1 h
    obtain ⟨rest, hrest, h⟩ := bind_eq_ok_iff.1 h
    rw [← Except.ok.inj h]
    exact .cons hb (ih hrest)

theorem map_eq_ok_iff {f : α → β} {b : β} :
    x.map f = .ok b ↔ ∃ a, x = .ok a ∧ f a = b := by
  cases x <;> simp [Except.map]

theorem mapError_eq_ok_iff {ε' : Type v} {f : ε → ε'} {a : α} :
    x.mapError f = .ok a ↔ x = .ok a := by
  cases x <;> simp [Except.mapError]

/-- What every step keeps of the entries taken so far, a fold that succeeds keeps of all of them. -/
theorem foldlM_invariant {step : β → α → Except ε β} {init result : β}
    (h : l.foldlM step init = .ok result) (motive : List α → β → Prop) (hinit : motive [] init)
    (hstep : ∀ done b, ∀ a ∈ l, ∀ b', step b a = .ok b' → motive done b →
      motive (done ++ [a]) b') : motive l result := by
  induction l using reverseRecOn generalizing result with
  | nil =>
    cases h
    exact hinit
  | append_singleton l a ih =>
    rw [foldlM_append] at h
    obtain ⟨b, hb, h⟩ := bind_eq_ok_iff.1 h
    obtain ⟨_, ha, h⟩ := bind_eq_ok_iff.1 h
    cases h
    exact hstep l b a (by simp) _ ha
      (ih hb fun done b a ha => hstep done b a (mem_append_left _ ha))

end Ocx
