import Ocx.Util.Map

/-!
# Layered settings

Settings that come from several tiers are merged one tier after the other.  A section that only some
tiers have is merged where both sides have it.  A value that ignores whatever is merged into it
survives every further tier.
-/

namespace Ocx

section MergeOption

variable {α : Type*}

/-- Merge a section that may be absent on either side. -/
def mergeOption (merge : α → α → α) : Option α → Option α → Option α
  | own, none => own
  | none, some added => some added
  | some own, some added => some (merge own added)

@[simp] theorem mergeOption_none (merge : α → α → α) (own : Option α) :
    mergeOption merge own none = own := by
  cases own <;> rfl

@[simp] theorem none_mergeOption (merge : α → α → α) (added : Option α) :
    mergeOption merge none added = added := by
  cases added <;> rfl

@[simp] theorem some_mergeOption_some (merge : α → α → α) (own added : α) :
    mergeOption merge (some own) (some added) = some (merge own added) := rfl

/-- A value that ignores what is merged into it. -/
def Absorbs (merge : α → α → α) (a : α) : Prop := ∀ b, merge a b = a

variable {merge : α → α → α}

theorem Absorbs.mergeOption {a : α} (h : Absorbs merge a) :
    Absorbs (Ocx.mergeOption merge) (some a) := by
  rintro (_ | b)
  · rfl
  · exact congrArg some (h b)

/-- **A value that ignores each tier ignores all of them**, also as a part of documents that are
merged part by part. -/
theorem foldl_of_absorbs {γ : Type*} {combine : γ → γ → γ} {part : γ → α}
    (hom : ∀ a b, part (combine a b) = merge (part a) (part b)) {a : γ}
    (h : Absorbs merge (part a)) (tiers : List γ) : part (tiers.foldl combine a) = part a := by
  induction tiers generalizing a with
  | nil => rfl
  | cons b tiers ih =>
    have hstep : part (combine a b) = part a := by rw [hom, h]
    rw [List.foldl_cons, ih (hstep ▸ h), hstep]

theorem Absorbs.mergeEntry {a : α} (h : Absorbs merge a) (default : α) :
    Absorbs (Ocx.mergeEntry merge default) (some a) := by
  rintro (_ | b)
  · rfl
  · exact congrArg some (h b)

end MergeOption

end Ocx
