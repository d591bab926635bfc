import Mathlib

/-!
# Lexicographic keys with missing components

A record with optional trailing components is often ordered so that a missing component sorts
after every present one. Such an order is the lexicographic order of a key in which a missing
component is the top element.
-/

namespace Ocx

variable {α β : Type*}

/-- `cmp` extended to optional values, a missing value being the greatest. -/
def cmpNoneLast (cmp : α → α → Ordering) : Option α → Option α → Ordering
  | none, none => .eq
  | none, some _ => .gt
  | some _, none => .lt
  | some a, some b => cmp a b

/-- An optional value with the missing one on top. -/
def top (f : α → β) : Option α → WithTop β
  | none => ⊤
  | some a => (f a : β)

@[simp] theorem top_none (f : α → β) : top f none = ⊤ := rfl

@[simp] theorem top_some (f : α → β) (a : α) : top f (some a) = (f a : β) := rfl

theorem top_injective {f : α → β} (hf : f.Injective) : (top f).Injective := by
  intro a b h
  cases a <;> cases b <;> simp_all [hf.eq_iff]

/-- An optional value with the missing one at the bottom. -/
def bottom : Option α → WithBot α
  | none => ⊥
  | some a => (a : α)

theorem bottom_injective : (bottom : Option α → WithBot α).Injective := by
  rintro (_ | a) (_ | b) h <;> cases h <;> rfl

section LinearOrder

variable [LinearOrder α] [LinearOrder β]

theorem compare_toLex (a c : α) (b d : β) :
    compare (toLex (a, b)) (toLex (c, d)) = (compare a c).then (compare b d) := by
  rcases lt_trichotomy a c with h | rfl | h
  · rfl
  · rw [compare_eq_iff_eq.2 (rfl : a = a)]
    rcases lt_trichotomy b d with h | rfl | h
    · rw [compare_lt_iff_lt.2 h, compare_lt_iff_lt.2 (by simp [Prod.Lex.toLex_lt_toLex, h])]
      rfl
    · simp
    · rw [compare_gt_iff_gt.2 h, compare_gt_iff_gt.2 (by simp [Prod.Lex.toLex_lt_toLex, h])]
      rfl
  · rfl

@[simp] theorem compare_withTop_coe (a b : α) :
    compare (a : WithTop α) (b : WithTop α) = compare a b := by
  rcases lt_trichotomy a b with h | rfl | h
  · rw [compare_lt_iff_lt.2 h, compare_lt_iff_lt.2 (WithTop.coe_lt_coe.2 h)]
  · simp
  · rw [compare_gt_iff_gt.2 h, compare_gt_iff_gt.2 (WithTop.coe_lt_coe.2 h)]

@[simp] theorem compare_withTop_top_coe (a : α) : compare (⊤ : WithTop α) (a : WithTop α) = .gt :=
  compare_gt_iff_gt.2 (WithTop.coe_lt_top a)

@[simp] theorem compare_withTop_coe_top (a : α) : compare (a : WithTop α) (⊤ : WithTop α) = .lt :=
  compare_lt_iff_lt.2 (WithTop.coe_lt_top a)

theorem cmpNoneLast_eq_compare_top {γ : Type*} {cmp : γ → γ → Ordering} {f : γ → β}
    (hf : ∀ a b, cmp a b = compare (f a) (f b)) (a b : Option γ) :
    cmpNoneLast cmp a b = compare (top f a) (top f b) := by
  rcases a with _ | a <;> rcases b with _ | b <;> simp [cmpNoneLast, hf]

/-- **Squeezing.** Between two lexicographic pairs that share the first component there are only
pairs that share it too. -/
theorem toLex_squeeze {a : α} {b d : β} {p : α × β} (h₁ : toLex (a, b) ≤ toLex p)
    (h₂ : toLex p ≤ toLex (a, d)) : p.1 = a ∧ b ≤ p.2 ∧ p.2 ≤ d := by
  rw [Prod.Lex.toLex_le_toLex] at h₁ h₂
  rcases h₁ with h₁ | ⟨h₁, hb⟩
  · rcases h₂ with h₂ | ⟨h₂, -⟩
    · exact absurd h₂ h₁.not_gt
    · exact absurd h₂ h₁.ne'
  · rcases h₂ with h₂ | ⟨-, hd⟩
    · exact absurd h₁ h₂.ne'
    · exact ⟨h₁.symm, hb, hd⟩

/-- The linear order of an injective key, compared by a given comparison that agrees with the
key's. -/
abbrev linearOrderOfKey {γ : Type*} [DecidableEq γ] (key : γ → α) (hkey : key.Injective)
    (cmp : γ → γ → Ordering) (hcmp : ∀ a b, cmp a b = compare (key a) (key b)) :
    LinearOrder γ where
  __ := LinearOrder.lift' key hkey
  toDecidableEq := inferInstance
  compare := cmp
  compare_eq_compareOfLessAndEq a b := by
    rw [hcmp, LinearOrder.compare_eq_compareOfLessAndEq]
    simp only [compareOfLessAndEq, hkey.eq_iff]
    rfl

end LinearOrder

end Ocx
