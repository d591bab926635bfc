import Ocx.Util.Map
import Ocx.Util.Outcome

/-!
# Completion orders

Concurrent tasks finish in any order. A `Completion` of a list of tasks is one such order; what is
collected into a map under distinct keys does not depend on it.
-/

namespace Ocx

open List

/-- An order in which the tasks of a list finish. -/
structure Completion {α : Type*} (tasks : List α) where
  /-- The tasks as they finish. -/
  order : List α
  /-- Every task finishes once. -/
  perm : order.Perm tasks

/-- The tasks finish one after another. -/
def Completion.inOrder {α : Type*} (tasks : List α) : Completion tasks := ⟨tasks, .refl _⟩

variable {α β : Type*} {f : α → Option β} {R : α → β → Prop} {l : List α} {l' : List β}

theorem mapM_eq_some_of_forall (h : ∀ x ∈ l, ∃ y, f x = some y) :
    ∃ ys, l.mapM f = some ys ∧ ∀ y, y ∈ ys ↔ ∃ x ∈ l, f x = some y := by
  induction l with
  | nil => exact ⟨[], rfl, by simp⟩
  | cons x l ih =>
    rw [forall_mem_cons] at h
    obtain ⟨⟨y, hy⟩, hl⟩ := h
    obtain ⟨ys, hys, hmem⟩ := ih hl
    refine ⟨y :: ys, by simp [mapM_cons, hy, hys], fun z => ?_⟩
    simp [mem_cons, hmem, exists_eq_or_imp, hy, Option.some.injEq, @eq_comm _ z y]

theorem forall₂_filterMap (h : ∀ x ∈ l, ∃ y, f x = some y ∧ R x y) :
    List.Forall₂ R l (l.filterMap f) := by
  induction l with
  | nil => exact .nil
  | cons x l ih =>
    rw [forall_mem_cons] at h
    obtain ⟨⟨y, hy, hxy⟩, hl⟩ := h
    rw [filterMap_cons_some hy]
    exact .cons hxy (ih hl)

theorem exists_mapM_eq_some_iff {P : β → Prop} :
    (∃ ys, l.mapM f = some ys ∧ ∀ y ∈ ys, P y) ↔ ∀ x ∈ l, ∃ y, f x = some y ∧ P y := by
  induction l with
  | nil => simp
  | cons x l ih =>
    rw [forall_mem_cons, ← ih, mapM_cons]
    cases hx : f x with
    | none => simp
    | some y =>
      cases hl : l.mapM f with
      | none => simp
      | some ys => simp

theorem exists_mapM_ok {ε : Type*} {f : α → Except ε β} (h : ∀ x ∈ l, ∃ y, f x = .ok y ∧ R x y) :
    ∃ ys, l.mapM f = .ok ys ∧ List.Forall₂ R l ys := by
  induction l with
  | nil => exact ⟨[], rfl, .nil⟩
  | cons x l ih =>
    rw [forall_mem_cons] at h
    obtain ⟨⟨y, hy, hP⟩, hl⟩ := h
    obtain ⟨ys, hys, hall⟩ := ih hl
    refine ⟨y :: ys, ?_, .cons hP hall⟩
    rw [mapM_cons, hy, hys]
    rfl

theorem forall₂_of_mapM_eq_some {ys : List β} (h : l.mapM f = some ys) :
    List.Forall₂ (fun x y => f x = some y) l ys := by
  induction l generalizing ys with
  | nil =>
    cases h
    exact .nil
  | cons x l ih =>
    rw [mapM_cons] at h
    obtain ⟨y, hy, h⟩ := Option.bind_eq_some_iff.1 h
    obtain ⟨zs, hzs, h⟩ := Option.bind_eq_some_iff.1 h
    cases h
    exact .cons hy (ih hzs)

theorem exists_of_forall₂ (h : List.Forall₂ R l l') {y : β} (hy : y ∈ l') : ∃ x ∈ l, R x y := by
  induction h with
  | nil => simp at hy
  | cons hxy _ ih =>
    rcases mem_cons.1 hy with rfl | hy
    · exact ⟨_, mem_cons_self, hxy⟩
    · obtain ⟨x, hx, hR⟩ := ih hy
      exact ⟨x, mem_cons_of_mem _ hx, hR⟩

theorem map_eq_of_forall₂ {γ : Type*} {f : β → γ} {g : α → γ}
    (h : List.Forall₂ (fun x y => f y = g x) l l') : l'.map f = l.map g := by
  induction h with
  | nil => rfl
  | cons hxy _ ih => rw [map_cons, map_cons, hxy, ih]

end Ocx
