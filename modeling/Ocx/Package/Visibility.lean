import Mathlib

/-!
# Visibility of dependency edges

A visibility has two axes: whether a package's own runtime sees the dependency, and whether its
consumers do. Visibilities are ordered by what they open; merging two is their supremum.
-/

namespace Ocx

/-- The visibility of a dependency edge. -/
structure Visibility where
  /-- Visible to the package's own runtime. -/
  hasPrivate : Bool
  /-- Propagated to the consumers of the package. -/
  hasInterface : Bool
deriving DecidableEq, Repr

namespace Visibility

def sealed : Visibility := ⟨false, false⟩

/-- Compose an edge with what its target opens: sealed unless the target exports to consumers. -/
def throughEdge (edge child : Visibility) : Visibility :=
  if child.hasInterface then edge else sealed

/-- The more open of two visibilities, axis by axis. -/
def merge (v w : Visibility) : Visibility :=
  ⟨v.hasPrivate || w.hasPrivate, v.hasInterface || w.hasInterface⟩

/-! ### Order -/

instance : PartialOrder Visibility :=
  PartialOrder.lift (fun v => (v.hasPrivate, v.hasInterface)) fun v w h => by
    cases v
    cases w
    simpa using h

theorem le_iff {v w : Visibility} : v ≤ w ↔ (v.hasPrivate = true → w.hasPrivate = true) ∧
    (v.hasInterface = true → w.hasInterface = true) := by
  exact Iff.rfl

instance : SemilatticeSup Visibility where
  sup := merge
  le_sup_left v w := le_iff.2 (by simp +contextual [merge])
  le_sup_right v w := le_iff.2 (by simp +contextual [merge])
  sup_le u v w hu hv := by
    rw [le_iff] at hu hv ⊢
    simp only [merge, Bool.or_eq_true]
    exact ⟨fun h => h.elim hu.1 hv.1, fun h => h.elim hu.2 hv.2⟩

theorem sup_eq_merge (v w : Visibility) : v ⊔ w = v.merge w := rfl

theorem isLUB_iff {s : Set Visibility} {v : Visibility} : IsLUB s v ↔
    (v.hasPrivate = true ↔ ∃ w ∈ s, w.hasPrivate = true) ∧
      (v.hasInterface = true ↔ ∃ w ∈ s, w.hasInterface = true) := by
  constructor
  · intro h
    refine ⟨⟨fun hv => ?_, fun ⟨w, hw, hp⟩ => (le_iff.1 (h.1 hw)).1 hp⟩,
      ⟨fun hv => ?_, fun ⟨w, hw, hi⟩ => (le_iff.1 (h.1 hw)).2 hi⟩⟩
    · -- otherwise closing the axis would still bound everything
      by_contra hnot
      have hbound : (⟨false, true⟩ : Visibility) ∈ upperBounds s := fun w hw =>
        le_iff.2 ⟨fun hp => absurd ⟨w, hw, hp⟩ hnot, fun _ => rfl⟩
      exact absurd ((le_iff.1 (h.2 hbound)).1 hv) (by simp)
    · by_contra hnot
      have hbound : (⟨true, false⟩ : Visibility) ∈ upperBounds s := fun w hw =>
        le_iff.2 ⟨fun _ => rfl, fun hi => absurd ⟨w, hw, hi⟩ hnot⟩
      exact absurd ((le_iff.1 (h.2 hbound)).2 hv) (by simp)
  · rintro ⟨hp, hi⟩
    refine ⟨fun w hw => le_iff.2 ⟨fun h => hp.2 ⟨w, hw, h⟩, fun h => hi.2 ⟨w, hw, h⟩⟩, ?_⟩
    intro u hu
    refine le_iff.2 ⟨fun h => ?_, fun h => ?_⟩
    · obtain ⟨w, hw, hwp⟩ := hp.1 h
      exact (le_iff.1 (hu hw)).1 hwp
    · obtain ⟨w, hw, hwi⟩ := hi.1 h
      exact (le_iff.1 (hu hw)).2 hwi

/-- Composing with an edge commutes with merging. -/
theorem isLUB_image_throughEdge {s : Set Visibility} {v : Visibility} (h : IsLUB s v)
    (edge : Visibility) : IsLUB (edge.throughEdge '' s) (edge.throughEdge v) := by
  have haxis (w : Visibility) : ((edge.throughEdge w).hasPrivate = true ↔
        edge.hasPrivate = true ∧ w.hasInterface = true) ∧
      ((edge.throughEdge w).hasInterface = true ↔
        edge.hasInterface = true ∧ w.hasInterface = true) := by
    cases hw : w.hasInterface <;> simp [throughEdge, sealed, hw]
  have hinterface := (isLUB_iff.1 h).2
  refine isLUB_iff.2 ⟨?_, ?_⟩
  · simp only [Set.exists_mem_image, (haxis _).1, hinterface]
    exact ⟨fun ⟨he, w, hw, hi⟩ => ⟨w, hw, he, hi⟩, fun ⟨w, hw, he, hi⟩ => ⟨he, w, hw, hi⟩⟩
  · simp only [Set.exists_mem_image, (haxis _).2, hinterface]
    exact ⟨fun ⟨he, w, hw, hi⟩ => ⟨w, hw, he, hi⟩, fun ⟨w, hw, he, hi⟩ => ⟨he, w, hw, hi⟩⟩

end Visibility

/-- What a path of edges opens to its start: the first edge if all later edges propagate to
consumers, and nothing otherwise. -/
def pathVisibility : List Visibility → Visibility
  | [] => .sealed
  | edge :: rest => if rest.all (·.hasInterface) then edge else .sealed

theorem throughEdge_pathVisibility (edge : Visibility) {rest : List Visibility} (h : rest ≠ []) :
    edge.throughEdge (pathVisibility rest) = pathVisibility (edge :: rest) := by
  cases rest with
  | nil => exact absurd rfl h
  | cons e rest =>
    cases hrest : rest.all (·.hasInterface) <;>
      simp [pathVisibility, Visibility.throughEdge, hrest, Visibility.sealed]

end Ocx
