import Mathlib

/-!
# Rolling names over ordered versions

Versions are published one platform at a time, in any order. Above the versions stand rolling
names; `chain v a` says that the name `a` rolls over the version `v`. A publication moves a name
unless a later version below it already ships the platform. Then every name ends up with the
content of the greatest version below it that ships the platform, whatever the order was.
-/

namespace Ocx

variable {V A P E : Type*} [LinearOrder V]

/-- The content of versions and rolling names, per platform. -/
structure Shelf (V A P E : Type*) where
  /-- What a version ships. -/
  content : V → P → Option E
  /-- What a rolling name carries. -/
  slot : A → P → Option E

namespace Shelf

/-- No later version below the name `a` ships the platform. -/
def Unblocked (chain : V → A → Prop) (s : Shelf V A P E) (v : V) (p : P) (a : A) : Prop :=
  ∀ w, v < w → chain w a → s.content w p = none

/-- Publishing `e` for version `v` and platform `p` leads from `s` to `s'`. -/
structure Publishes (chain : V → A → Prop) (s : Shelf V A P E) (v : V) (p : P) (e : E)
    (s' : Shelf V A P E) : Prop where
  /-- The version ships the new content. -/
  content_self : s'.content v p = some e
  content_other : ∀ w q, (w, q) ≠ (v, p) → s'.content w q = s.content w q
  /-- The unblocked names above the version move. -/
  slot_moved : ∀ a, chain v a → s.Unblocked chain v p a → s'.slot a p = some e
  /-- All other names are unchanged. -/
  slot_other : ∀ a q, ¬ (q = p ∧ chain v a ∧ s.Unblocked chain v p a) → s'.slot a q = s.slot a q

/-- Every rolling name carries the content of the greatest version below it. -/
structure Greatest (chain : V → A → Prop) (s : Shelf V A P E) : Prop where
  /-- What a name carries comes from a greatest version below it. -/
  sound : ∀ a p e, s.slot a p = some e →
    ∃ v, chain v a ∧ s.content v p = some e ∧ s.Unblocked chain v p a
  /-- A name above a version that ships the platform carries something. -/
  complete : ∀ a p v, chain v a → s.content v p ≠ none → s.slot a p ≠ none

variable {chain : V → A → Prop} {s s' : Shelf V A P E} {v : V} {p : P} {e : E}

theorem Publishes.unblocked_trans (h : s.Publishes chain v p e s') {a : A} {w : V} {q : P}
    (hw : s.Unblocked chain w q a) (hv : ¬ (q = p ∧ w < v ∧ chain v a)) :
    s'.Unblocked chain w q a := by
  intro u hlt hu
  by_cases huq : (u, q) = (v, p)
  · obtain ⟨rfl, rfl⟩ := Prod.mk.inj huq
    exact absurd ⟨rfl, hlt, hu⟩ hv
  · rw [h.content_other u q huq]
    exact hw u hlt hu

/-- **A publication keeps every name at its greatest version.** -/
theorem Greatest.publishes (hs : s.Greatest chain) (h : s.Publishes chain v p e s') :
    s'.Greatest chain := by
  constructor
  · intro a q x hx
    by_cases hmoved : q = p ∧ chain v a ∧ s.Unblocked chain v p a
    · obtain ⟨rfl, hva, hun⟩ := hmoved
      rw [h.slot_moved a hva hun] at hx
      refine ⟨v, hva, h.content_self.trans hx, h.unblocked_trans hun ?_⟩
      rintro ⟨-, hlt, -⟩
      exact hlt.false
    · rw [h.slot_other a q hmoved] at hx
      obtain ⟨u, hua, hcontent, hun⟩ := hs.sound a q x hx
      have hne : (u, q) ≠ (v, p) := by
        rintro heq
        obtain ⟨rfl, rfl⟩ := Prod.mk.inj heq
        exact hmoved ⟨rfl, hua, hun⟩
      refine ⟨u, hua, (h.content_other u q hne).trans hcontent, h.unblocked_trans hun ?_⟩
      -- a later `v` below `a` would have moved the name
      rintro ⟨rfl, hlt, hva⟩
      exact hmoved ⟨rfl, hva, fun w hw hwa => hun w (hlt.trans hw) hwa⟩
  · intro a q u hua hcontent
    by_cases hmoved : q = p ∧ chain v a ∧ s.Unblocked chain v p a
    · obtain ⟨rfl, hva, hun⟩ := hmoved
      simp [h.slot_moved a hva hun]
    · rw [h.slot_other a q hmoved]
      by_cases heq : (u, q) = (v, p)
      · obtain ⟨rfl, rfl⟩ := Prod.mk.inj heq
        -- the publication was blocked, so a later version below `a` ships the platform
        have hblocked : ¬ s.Unblocked chain u q a := fun hun => hmoved ⟨rfl, hua, hun⟩
        simp only [Unblocked, not_forall] at hblocked
        obtain ⟨w, -, hwa, hw⟩ := hblocked
        exact hs.complete a q w hwa hw
      · rw [h.content_other u q heq] at hcontent
        exact hs.complete a q u hua hcontent

/-- **The content of a name.** A name carries `e` exactly when `e` is what the greatest version
below it ships. -/
theorem Greatest.slot_eq_some_iff (hs : s.Greatest chain) {a : A} :
    s.slot a p = some e ↔ ∃ v, chain v a ∧ s.content v p = some e ∧ s.Unblocked chain v p a := by
  constructor
  · exact hs.sound a p e
  · rintro ⟨v, hva, hcontent, hun⟩
    cases hslot : s.slot a p with
    | none => exact absurd hslot (hs.complete a p v hva (by simp [hcontent]))
    | some x =>
      obtain ⟨w, hwa, hw, hun'⟩ := hs.sound a p x hslot
      obtain rfl : v = w := by
        rcases lt_trichotomy v w with hlt | heq | hlt
        · simp [hun w hlt hwa] at hw
        · exact heq
        · simp [hun' v hlt hva] at hcontent
      exact hw.symm.trans hcontent

end Shelf

end Ocx
