import Ocx.Oci.Platform
import Ocx.Util.Best

/-!
# Selecting a platform

Of the platforms a package is offered for, a host takes the most specific one that it can run.
-/

namespace Ocx

open List

/-- An offered platform satisfies a required one: it is `any`, or has the same pair, a variant only
if that is the required one, and only features that are required. -/
def isCompatible (required offered : Platform) : Bool :=
  match required, offered with
  | _, .any => true
  | .any, .specific .. => false
  | .specific requiredOs requiredArch requiredVariant requiredFeatures,
      .specific offeredOs offeredArch offeredVariant offeredFeatures =>
    if requiredOs ≠ offeredOs ∨ requiredArch ≠ offeredArch then false
    else if offeredVariant.isSome ∧ offeredVariant ≠ requiredVariant then false
    else offeredFeatures.all fun feature => requiredFeatures.contains feature

/-- How specific an offer is: a specific platform first, then a variant, then the features. -/
def compatibilityScore : Platform → Bool ×ₗ ℕ ×ₗ ℕ
  | .any => toLex (false, toLex (0, 0))
  | .specific _ _ variant osFeatures =>
    toLex (true, toLex (if variant.isSome then 1 else 0, osFeatures.length))

inductive Selection (τ : Type*)
  /-- One candidate is best. -/
  | found (item : τ)
  /-- Several candidates are best. -/
  | ambiguous (items : List τ)
  /-- No candidate is compatible. -/
  | none

namespace Selection

variable {τ υ : Type*}

/-- The selection among the candidates that tie for the best score. -/
def ofBest : List τ → Selection τ
  | [] => none
  | [item] => found item
  | items => ambiguous items

/-- The outcome in other terms. -/
def map (f : τ → υ) : Selection τ → Selection υ
  | found item => found (f item)
  | ambiguous items => ambiguous (items.map f)
  | none => none

/-- The same outcome, up to the order in which the tied candidates are reported. -/
def SameChoice : Selection τ → Selection τ → Prop
  | found a, found b => a = b
  | ambiguous as, ambiguous bs => as.Perm bs
  | none, none => True
  | _, _ => False

theorem map_ofBest (f : τ → υ) (best : List τ) : (ofBest best).map f = ofBest (best.map f) := by
  rcases best with _ | ⟨a, _ | ⟨b, rest⟩⟩ <;> rfl

theorem sameChoice_ofBest {best best' : List τ} (h : best.Perm best') :
    SameChoice (ofBest best) (ofBest best') := by
  rcases best with _ | ⟨a, _ | ⟨b, rest⟩⟩
  · rw [nil_perm.1 h]
    trivial
  · rw [← singleton_perm.1 h]
    exact rfl
  · have hlength := h.length_eq
    rcases best' with _ | ⟨a', _ | ⟨b', rest'⟩⟩
    · simp at hlength
    · simp at hlength
    · exact h

end Selection

variable {τ : Type*}

/-- One step of the selection: incompatible candidates are passed over. -/
def selectStep (required : Platform) (best : Option (Bool ×ₗ ℕ ×ₗ ℕ) × List τ)
    (candidate : τ × Platform) : Option (Bool ×ₗ ℕ ×ₗ ℕ) × List τ :=
  if isCompatible required candidate.2 then
    keepBest (fun c => compatibilityScore c.2) Prod.fst best candidate
  else best

/-- The compatible candidate of greatest score. -/
def selectBest (required : Platform) (candidates : List (τ × Platform)) : Selection τ :=
  .ofBest (candidates.foldl (selectStep required) (none, [])).2

/-- The compatible candidates of greatest score. -/
def bestOffers (required : Platform) (candidates : List (τ × Platform)) : List (τ × Platform) :=
  let compatible := candidates.filter fun c => isCompatible required c.2
  compatible.filter fun c => IsTop (fun c => compatibilityScore c.2) compatible c

theorem selectBest_eq (required : Platform) (candidates : List (τ × Platform)) :
    selectBest required candidates = .ofBest ((bestOffers required candidates).map Prod.fst) := by
  have hfilter : candidates.foldl (selectStep required) (none, []) =
      (candidates.filter fun c => isCompatible required c.2).foldl
        (keepBest (fun c => compatibilityScore c.2) Prod.fst) (none, []) := by
    rw [foldl_filter]
    rfl
  unfold selectBest
  rw [hfilter, foldl_keepBest]
  rfl

variable {candidates' candidates : List (τ × Platform)}

theorem perm_bestOffers {required : Platform}
    (h : candidates.Perm candidates') :
    (bestOffers required candidates).Perm (bestOffers required candidates') :=
  perm_top (h.filter _)

/-- **Order does not matter.** Up to the order of tied candidates, the selection is the same for
every order of the candidates. -/
theorem sameChoice_selectBest_of_perm {required : Platform} (h : candidates.Perm candidates') :
    (selectBest required candidates).SameChoice (selectBest required candidates') := by
  rw [selectBest_eq, selectBest_eq]
  exact Selection.sameChoice_ofBest ((perm_bestOffers h).map Prod.fst)

theorem bestOffers_map {υ : Type*} (required : Platform) (f : τ → υ)
    (candidates : List (τ × Platform)) :
    bestOffers required (candidates.map fun c => (f c.1, c.2)) =
      (bestOffers required candidates).map fun c => (f c.1, c.2) := by
  unfold bestOffers
  simp only [filter_map, Function.comp_def]
  congr 1
  refine filter_congr fun c hc => ?_
  rw [decide_eq_decide]
  simp only [IsTop, mem_map, forall_exists_index, and_imp, forall_apply_eq_imp_iff₂]

theorem map_selectBest {υ : Type*} (required : Platform) (f : τ → υ)
    (candidates : List (τ × Platform)) :
    (selectBest required candidates).map f =
      selectBest required (candidates.map fun c => (f c.1, c.2)) := by
  rw [selectBest_eq, selectBest_eq, Selection.map_ofBest, bestOffers_map, map_map,
    map_map]
  rfl

end Ocx
