import Ocx.Oci.Selection

/-!
# Refinement of offers

An offer refines another one when it asks at least as much of a host: the same pair, the variant of
the other if that has one, and all of its features. This is compatibility read between offers, and
it is a preorder. The score of an offer never goes against refinement, as long as the features of
the offers carry no duplicates, so a host never gets an offer when there is a finer one that it can
run.
-/

namespace Ocx

open List

/-! ### Compatibility is a preorder -/

theorem isCompatible_specific_iff {os os' : OperatingSystem} {arch arch' : Architecture}
    {variant variant' : Option String} {features features' : List String} :
    isCompatible (.specific os arch variant features)
      (.specific os' arch' variant' features') = true ↔
      os = os' ∧ arch = arch' ∧ (variant' = none ∨ variant' = variant) ∧ features' ⊆ features := by
  rw [isCompatible]
  split_ifs with hpair hvariant
  · refine iff_of_false not_false ?_
    rintro ⟨hos, harch, -⟩
    exact hpair.elim (· hos) (· harch)
  · refine iff_of_false not_false ?_
    rintro ⟨-, -, hnone | hsame, -⟩
    · simp [hnone] at hvariant
    · exact hvariant.2 hsame
  · rw [not_or, not_not, not_not] at hpair
    have hv : variant' = none ∨ variant' = variant := by
      rw [← Option.not_isSome_iff_eq_none]
      tauto
    simp [hpair.1, hpair.2, hv, subset_def]

theorem isCompatible_refl (p : Platform) : isCompatible p p = true := by
  cases p with
  | any => rfl
  | specific os arch variant features =>
    exact isCompatible_specific_iff.2 ⟨rfl, rfl, .inr rfl, List.Subset.refl _⟩

theorem isCompatible_trans {p q r : Platform} (hpq : isCompatible p q = true)
    (hqr : isCompatible q r = true) : isCompatible p r = true := by
  rcases r with _ | ⟨os₃, arch₃, variant₃, features₃⟩
  · cases p <;> rfl
  · -- only `any` satisfies `any`, so all three are specific
    rcases q with _ | ⟨os₂, arch₂, variant₂, features₂⟩
    · cases hqr
    rcases p with _ | ⟨os₁, arch₁, variant₁, features₁⟩
    · cases hpq
    obtain ⟨rfl, rfl, hvariant, hsub⟩ := isCompatible_specific_iff.1 hpq
    obtain ⟨rfl, rfl, hvariant', hsub'⟩ := isCompatible_specific_iff.1 hqr
    refine isCompatible_specific_iff.2 ⟨rfl, rfl, ?_, List.Subset.trans hsub' hsub⟩
    rcases hvariant' with h | rfl
    exacts [.inl h, hvariant]

/-! ### Refinement and score -/

namespace Platform

/-- The offer `p` asks at least what the offer `q` asks. -/
def Refines (p q : Platform) : Prop := isCompatible p q = true

/-- The offer `p` asks what `q` asks, and more. -/
def StrictlyRefines (p q : Platform) : Prop := p.Refines q ∧ ¬ q.Refines p

/-- The features are sorted without duplicates. -/
def NormalFeatures : Platform → Prop
  | any => True
  | specific _ _ _ osFeatures => normalizeOsFeatures osFeatures = osFeatures

instance : DecidablePred NormalFeatures
  | any => inferInstanceAs (Decidable True)
  | specific _ _ _ osFeatures =>
    inferInstanceAs (Decidable (normalizeOsFeatures osFeatures = osFeatures))

end Platform

theorem nodup_normalizeOsFeatures (features : List String) :
    (normalizeOsFeatures features).Nodup := by
  unfold normalizeOsFeatures
  split_ifs with h
  · rcases features with _ | ⟨a, _ | ⟨b, rest⟩⟩
    · exact nodup_nil
    · exact nodup_singleton a
    · simp at h
  · exact nodup_dedup _

/-- The score follows strict refinement. -/
theorem compatibilityScore_lt {p q : Platform} (hp : p.NormalFeatures) (hq : q.NormalFeatures)
    (h : p.StrictlyRefines q) : compatibilityScore q < compatibilityScore p := by
  obtain ⟨hrefines, hnot⟩ := h
  rcases q with _ | ⟨os', arch', variant', features'⟩
  · rcases p with _ | ⟨os, arch, variant, features⟩
    · exact absurd (isCompatible_refl _) hnot
    · exact Prod.Lex.toLex_lt_toLex.2 (.inl Bool.false_lt_true)
  · rcases p with _ | ⟨os, arch, variant, features⟩
    · cases hrefines
    obtain ⟨rfl, rfl, hvariant, hsub⟩ := isCompatible_specific_iff.1 hrefines
    have hnodup' : features'.Nodup := hq ▸ nodup_normalizeOsFeatures features'
    refine Prod.Lex.toLex_lt_toLex.2 (.inr ⟨rfl, Prod.Lex.toLex_lt_toLex.2 ?_⟩)
    by_cases hsame : variant' = variant
    · -- the features then differ, and the finer offer has more of them
      subst hsame
      refine .inr ⟨rfl, ?_⟩
      have hsubperm := hnodup'.subperm hsub
      refine lt_of_le_of_ne hsubperm.length_le fun hlength => hnot ?_
      have hperm := hsubperm.perm_of_length_le hlength.ge
      exact isCompatible_specific_iff.2 ⟨rfl, rfl, .inr rfl, hperm.symm.subset⟩
    · have hnone := hvariant.resolve_right hsame
      subst hnone
      obtain ⟨name, rfl⟩ := Option.ne_none_iff_exists'.1 (Ne.symm hsame)
      exact .inl (by simp)

/-! ### The outcome of a selection -/

section Outcome

variable {τ : Type*} {required : Platform} {candidates : List (τ × Platform)}

theorem Selection.ofBest_eq_none_iff {best : List τ} : ofBest best = none ↔ best = [] := by
  rcases best with _ | ⟨a, _ | ⟨b, rest⟩⟩ <;> simp [ofBest]

theorem Selection.ofBest_eq_found_iff {best : List τ} {item : τ} :
    ofBest best = found item ↔ best = [item] := by
  rcases best with _ | ⟨a, _ | ⟨b, rest⟩⟩ <;> simp [ofBest]

/-- What a selection picks: its one find, or the tied candidates. -/
def Selection.picks : Selection τ → List τ
  | found item => [item]
  | ambiguous items => items
  | none => []

theorem Selection.picks_ofBest (best : List τ) : (ofBest best).picks = best := by
  rcases best with _ | ⟨a, _ | ⟨b, rest⟩⟩ <;> rfl

theorem selectBest_eq_none_iff :
    selectBest required candidates = .none ↔
      ∀ c ∈ candidates, isCompatible required c.2 = false := by
  rw [selectBest_eq, Selection.ofBest_eq_none_iff, map_eq_nil_iff, bestOffers, top_eq_nil_iff,
    filter_eq_nil_iff]
  simp

theorem selectBest_eq_found_iff {item : τ} :
    selectBest required candidates = .found item ↔
      ∃ before c after, candidates = before ++ c :: after ∧ c.1 = item ∧
        isCompatible required c.2 = true ∧ ∀ d ∈ before ++ after, isCompatible required d.2 = true →
          compatibilityScore d.2 < compatibilityScore c.2 := by
  rw [selectBest_eq, Selection.ofBest_eq_found_iff, map_eq_singleton_iff]
  constructor
  · rintro ⟨c, hbest, rfl⟩
    obtain ⟨before, after, hsplit, hlt⟩ := top_eq_singleton_iff.1 hbest
    obtain ⟨front, rest, rfl, rfl, hrest⟩ := filter_eq_append_iff.1 hsplit
    obtain ⟨skipped, back, rfl, hskipped, hc, rfl⟩ := filter_eq_cons_iff.1 hrest
    refine ⟨front ++ skipped, c, back, by simp, rfl, hc, fun d hd hcompat => hlt d ?_⟩
    simp only [mem_append, mem_filter] at hd ⊢
    rcases hd with (hd | hd) | hd
    · exact .inl ⟨hd, hcompat⟩
    · exact absurd hcompat (hskipped d hd)
    · exact .inr ⟨hd, hcompat⟩
  · rintro ⟨before, c, after, rfl, rfl, hc, hlt⟩
    refine ⟨c, top_eq_singleton_iff.2 ⟨before.filter fun c => isCompatible required c.2,
      after.filter fun c => isCompatible required c.2, by simp [hc], fun d hd => ?_⟩, rfl⟩
    rw [← filter_append, mem_filter] at hd
    exact hlt d hd.1 hd.2

theorem not_strictlyRefines_of_mem_picks (hnormal : ∀ c ∈ candidates, c.2.NormalFeatures)
    {item : τ} (h : item ∈ (selectBest required candidates).picks) :
    ∃ c ∈ candidates, c.1 = item ∧ isCompatible required c.2 = true ∧
      ∀ d ∈ candidates, isCompatible required d.2 = true → ¬ d.2.StrictlyRefines c.2 := by
  rw [selectBest_eq, Selection.picks_ofBest] at h
  obtain ⟨c, hc, rfl⟩ := mem_map.1 h
  obtain ⟨hcompatible, htop⟩ := mem_filter.1 hc
  obtain ⟨hmem, hcompat⟩ := mem_filter.1 hcompatible
  refine ⟨c, hmem, rfl, hcompat, fun d hd hdcompat hrefines => ?_⟩
  have hle := of_decide_eq_true htop d (mem_filter.2 ⟨hd, hdcompat⟩)
  exact (compatibilityScore_lt (hnormal d hd) (hnormal c hmem) hrefines).not_ge hle

end Outcome

/-- **Platform selection.** Compatibility is reflexive and transitive. Up to the order of tied
candidates, the selection does not depend on the order of the candidates. It finds one candidate
exactly when that beats all other compatible ones, and none exactly when none is compatible. With
normalised features, no candidate that it picks is strictly refined by a compatible one. -/
theorem selectBest_spec {τ : Type*} (required : Platform) (candidates : List (τ × Platform)) :
    (∀ p, isCompatible p p = true) ∧
    (∀ p q r, isCompatible p q = true → isCompatible q r = true → isCompatible p r = true) ∧
    (∀ candidates', candidates.Perm candidates' →
      (selectBest required candidates).SameChoice (selectBest required candidates')) ∧
    (∀ item, selectBest required candidates = .found item ↔
      ∃ before c after, candidates = before ++ c :: after ∧ c.1 = item ∧
        isCompatible required c.2 = true ∧ ∀ d ∈ before ++ after, isCompatible required d.2 = true →
          compatibilityScore d.2 < compatibilityScore c.2) ∧
    (selectBest required candidates = .none ↔
      ∀ c ∈ candidates, isCompatible required c.2 = false) ∧
    ((∀ c ∈ candidates, c.2.NormalFeatures) →
      ∀ item ∈ (selectBest required candidates).picks,
        ∃ c ∈ candidates, c.1 = item ∧ isCompatible required c.2 = true ∧
          ∀ d ∈ candidates, isCompatible required d.2 = true → ¬ d.2.StrictlyRefines c.2) := by
  exact ⟨isCompatible_refl, fun p q r => isCompatible_trans,
    fun candidates' hperm => sameChoice_selectBest_of_perm hperm,
    fun item => selectBest_eq_found_iff, selectBest_eq_none_iff,
    fun hnormal item hitem => not_strictlyRefines_of_mem_picks hnormal hitem⟩

def linuxWith (osFeatures : List String) : Platform := .specific .linux .amd64 none osFeatures

/-- Of the offers `linux/amd64` and `linux/amd64+libc.glibc` a host with `libc.glibc` gets the
second one, in either order. -/
theorem selectBest_spec_libc :
    selectBest (linuxWith ["libc.glibc"])
      [(0, linuxWith []), (1, linuxWith ["libc.glibc"])] = .found 1 ∧
    (selectBest (linuxWith ["libc.glibc"])
      [(0, linuxWith []), (1, linuxWith ["libc.glibc"])]).SameChoice
        (selectBest (linuxWith ["libc.glibc"])
          [(1, linuxWith ["libc.glibc"]), (0, linuxWith [])]) ∧
    ∃ c ∈ [(0, linuxWith []), (1, linuxWith ["libc.glibc"])], c.1 = 1 ∧
      isCompatible (linuxWith ["libc.glibc"]) c.2 = true ∧
      ∀ d ∈ [(0, linuxWith []), (1, linuxWith ["libc.glibc"])],
        isCompatible (linuxWith ["libc.glibc"]) d.2 = true → ¬ d.2.StrictlyRefines c.2 := by
  have hfound : selectBest (linuxWith ["libc.glibc"])
      [(0, linuxWith []), (1, linuxWith ["libc.glibc"])] = .found 1 := rfl
  obtain ⟨-, -, hperm, -, -, hpicks⟩ := selectBest_spec (linuxWith ["libc.glibc"])
    [(0, linuxWith []), (1, linuxWith ["libc.glibc"])]
  exact ⟨hfound, hperm _ (.swap _ _ _), hpicks (by decide) 1 (by simp [hfound, Selection.picks])⟩

end Ocx
