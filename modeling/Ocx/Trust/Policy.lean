import Ocx.Trust.Scope
import Ocx.Util.Best
import Ocx.Util.Layered

/-!
# Trust policies

A trust policy pins who may sign the packages of a scope.  The operator declares policies in the
configuration tiers, a project declares some in its own file.  For a package the most specific
policies apply, but a policy of the system file governs alone, and the operator's policies keep the
project's from being asked at all.
-/

namespace Ocx

open List

variable {target : String}

/-! ### Policies -/

/-- A signer known by certificate. -/
structure KeylessMatcher where
  identity : Option String
  identityRegexp : Option String
  oidcIssuer : Option String
deriving DecidableEq, Repr

/-- A signer known by public key. -/
structure KeyMatcher where
  key : Option String
  keyPem : Option String
deriving DecidableEq, Repr

inductive SignerSpec
  /-- A signer known by certificate. -/
  | keyless (matcher : KeylessMatcher)
  /-- A signer known by public key. -/
  | key (matcher : KeyMatcher)
  /-- A kind that this version does not know. It accepts nobody. -/
  | unknown
deriving DecidableEq, Repr

structure TrustPolicy where
  /-- The packages the policy applies to, or all of them. -/
  scope : Option ScopeSpec
  builder : Option String
  signers : List SignerSpec
  /-- The policy was declared by the system file. -/
  systemLocked : Bool
deriving DecidableEq, Repr

namespace TrustPolicy

/-- The policy applies to a package. -/
def matchesScope (p : TrustPolicy) (target : String) : Bool :=
  p.scope.all (·.matchesTarget target)

/-- How specifically a policy applies to a package. -/
def specificityFor (p : TrustPolicy) (target : String) : ℕ :=
  (p.scope.map (·.specificityFor target)).getD 0

end TrustPolicy

/-! ### The section -/

/-- The sub-table `[trust.sigstore]`. -/
structure SigstoreTrust where
  trustedRoot : Option String := none
  trustedRootJson : Option String := none
  fulcioUrl : Option String := none
  rekorUrl : Option String := none
  /-- Whether key signatures are uploaded. -/
  rekorUpload : Option Bool := none
  /-- The sub-table was declared by the system file. -/
  systemLocked : Bool := false
deriving DecidableEq, Repr

namespace SigstoreTrust

/-- Mark the sub-table as declared by the system file. -/
def lockAsSystem (s : SigstoreTrust) : SigstoreTrust := { s with systemLocked := true }

/-- Merge a tier of higher precedence. The two forms of the root are taken together. -/
def merge (self other : SigstoreTrust) : SigstoreTrust :=
  if self.systemLocked then self
  else
    let root := other.trustedRoot.isSome || other.trustedRootJson.isSome
    { trustedRoot := if root then other.trustedRoot else self.trustedRoot
      trustedRootJson := if root then other.trustedRootJson else self.trustedRootJson
      fulcioUrl := other.fulcioUrl.or self.fulcioUrl
      rekorUrl := other.rekorUrl.or self.rekorUrl
      rekorUpload := other.rekorUpload.or self.rekorUpload
      systemLocked := other.systemLocked }

end SigstoreTrust

structure TrustConfig where
  policy : List TrustPolicy := []
  sigstore : Option SigstoreTrust := none
deriving DecidableEq, Repr

namespace TrustConfig

/-- Mark every policy and the sub-table as declared by the system file. -/
def lockAsSystem (t : TrustConfig) : TrustConfig where
  policy := t.policy.map fun p => { p with systemLocked := true }
  sigstore := t.sigstore.map SigstoreTrust.lockAsSystem

/-- Merge a tier of higher precedence: its policies are appended. -/
def merge (self other : TrustConfig) : TrustConfig where
  policy := self.policy ++ other.policy
  sigstore := mergeOption SigstoreTrust.merge self.sigstore other.sigstore

end TrustConfig

/-! ### Resolution -/

/-- The policies that apply to a package, among those of one tier: the most specific ones of the
system file if any of its policies match, and the most specific ones otherwise. -/
def resolve (policies : List TrustPolicy) (target : String) : List TrustPolicy :=
  let matching := policies.filter (·.matchesScope target)
  match ((matching.filter (·.systemLocked)).map (·.specificityFor target)).max? with
  | some level => matching.filter fun p => p.systemLocked && p.specificityFor target = level
  | none =>
    match (matching.map (·.specificityFor target)).max? with
    | some level => matching.filter fun p => p.specificityFor target = level
    | none => []

/-- The compiled policies that apply to a package. The project is asked only if no policy of the
operator matches. -/
def resolveTiered {ε κ : Type*} (compile : TrustPolicy → Except ε κ)
    (operator project : List TrustPolicy) (target : String) : Except ε (List κ) :=
  let operatorMatch := resolve operator target
  (if operatorMatch.isEmpty then resolve project target else operatorMatch).mapM compile

/-! ### What governs -/

/-- The policies of a tier that may decide about a package: those of the system file if one of them
matches, and all that match otherwise. -/
def governing (policies : List TrustPolicy) (target : String) : List TrustPolicy :=
  let matching := policies.filter (·.matchesScope target)
  if matching.any (·.systemLocked) then matching.filter (·.systemLocked) else matching

/-- The class of policies that decides about a package, over both tiers. -/
def governingClass (operator project : List TrustPolicy) (target : String) : List TrustPolicy :=
  if operator.any (·.matchesScope target) then governing operator target
  else governing project target

def mostSpecific (policies : List TrustPolicy) (target : String) : List TrustPolicy :=
  policies.filter fun p => IsTop (fun q : TrustPolicy => q.specificityFor target) policies p

variable {policies : List TrustPolicy}

theorem mostSpecific_eq {level : ℕ}
    (h : (policies.map (·.specificityFor target)).max? = some level) :
    mostSpecific policies target = policies.filter fun p => p.specificityFor target = level := by
  obtain ⟨hmem, hle⟩ := max?_eq_some_iff.1 h
  refine filter_isTop_eq ⟨mem_map.1 hmem, fun q hq => hle _ (mem_map_of_mem hq)⟩

/-- **The resolved policies of a tier are the most specific ones of those that govern.** -/
theorem resolve_eq (policies : List TrustPolicy) (target : String) :
    resolve policies target = mostSpecific (governing policies target) target := by
  simp only [resolve, governing]
  generalize policies.filter (·.matchesScope target) = matching
  split
  · rename_i level hlevel
    have hlocked : matching.any (·.systemLocked) = true := by
      obtain ⟨p, hp, -⟩ := mem_map.1 (max?_eq_some_iff.1 hlevel).1
      exact any_eq_true.2 ⟨p, mem_filter.1 hp⟩
    rw [if_pos hlocked, mostSpecific_eq hlevel, filter_filter]
    simp [Bool.and_comm]
  · rename_i hnone
    have hlocked : ¬ matching.any (·.systemLocked) = true := by
      simpa using hnone
    rw [if_neg hlocked]
    split
    · rename_i level hlevel
      exact (mostSpecific_eq hlevel).symm
    · rename_i hnil
      rw [max?_eq_none_iff, map_eq_nil_iff] at hnil
      rw [hnil]
      rfl

theorem mostSpecific_eq_nil_iff :
    mostSpecific policies target = [] ↔ policies = [] := by
  constructor
  · intro h
    cases hmax : (policies.map (·.specificityFor target)).max? with
    | none => simpa [max?_eq_none_iff] using hmax
    | some level =>
      obtain ⟨p, hp, hlevel⟩ := mem_map.1 (max?_eq_some_iff.1 hmax).1
      rw [mostSpecific_eq hmax, filter_eq_nil_iff] at h
      exact absurd hlevel (by simpa using h p hp)
  · rintro rfl
    rfl

theorem governing_eq_nil_iff :
    governing policies target = [] ↔ policies.any (·.matchesScope target) = false := by
  rw [governing]
  have hany : policies.any (·.matchesScope target) = false ↔
      policies.filter (·.matchesScope target) = [] := by
    rw [filter_eq_nil_iff, any_eq_false]
  rw [hany]
  split_ifs with hlocked
  · obtain ⟨p, hp, hl⟩ := any_eq_true.1 hlocked
    refine iff_of_false (fun h => ?_) (ne_nil_of_mem hp)
    exact filter_eq_nil_iff.1 h p hp hl
  · exact Iff.rfl

/-- **The resolved policies are the most specific ones of the class that governs.** -/
theorem resolveTiered_eq {ε κ : Type*} (compile : TrustPolicy → Except ε κ)
    (operator project : List TrustPolicy) (target : String) :
    resolveTiered compile operator project target =
      (mostSpecific (governingClass operator project target) target).mapM compile := by
  rw [resolveTiered, governingClass, resolve_eq, resolve_eq]
  by_cases h : operator.any (·.matchesScope target) = true
  · have hne : governing operator target ≠ [] := by
      intro hnil
      rw [governing_eq_nil_iff.1 hnil] at h
      cases h
    rw [if_pos h, if_neg]
    rwa [List.isEmpty_iff, mostSpecific_eq_nil_iff]
  · have hnil := governing_eq_nil_iff.2 (Bool.eq_false_iff.2 h)
    rw [if_neg h, if_pos]
    rw [List.isEmpty_iff, mostSpecific_eq_nil_iff, hnil]

theorem governing_of_locked
    (h : ∃ p ∈ policies, p.systemLocked = true ∧ p.matchesScope target = true) :
    governing policies target =
      (policies.filter (·.systemLocked)).filter (·.matchesScope target) := by
  obtain ⟨p, hp, hlocked, hmatch⟩ := h
  rw [governing, if_pos, filter_comm]
  exact any_eq_true.2 ⟨p, mem_filter.2 ⟨hp, hmatch⟩, hlocked⟩

theorem resolveTiered_congr {ε κ : Type*} (compile : TrustPolicy → Except ε κ)
    {operator operator' project project' : List TrustPolicy}
    (hpin : ∃ p ∈ operator, p.systemLocked = true ∧ p.matchesScope target = true)
    (hsame : operator'.filter (·.systemLocked) = operator.filter (·.systemLocked)) :
    resolveTiered compile operator' project' target =
      resolveTiered compile operator project target := by
  have hpin' : ∃ p ∈ operator', p.systemLocked = true ∧ p.matchesScope target = true := by
    obtain ⟨p, hp, hl, hm⟩ := hpin
    have hmem : p ∈ operator'.filter (·.systemLocked) := hsame ▸ mem_filter.2 ⟨hp, hl⟩
    exact ⟨p, (mem_filter.1 hmem).1, hl, hm⟩
  have hany : ∀ {policies : List TrustPolicy},
      (∃ p ∈ policies, p.systemLocked = true ∧ p.matchesScope target = true) →
      policies.any (·.matchesScope target) = true := by
    rintro policies ⟨p, hp, -, hm⟩
    exact any_eq_true.2 ⟨p, hp, hm⟩
  rw [resolveTiered_eq, resolveTiered_eq, governingClass, governingClass, if_pos (hany hpin),
    if_pos (hany hpin'), governing_of_locked hpin, governing_of_locked hpin', hsame]

/-- **Lower tiers and projects do not weaken an operator's pin.** What applies to a package are the
most specific policies of the class that governs it.  If a policy of the system file matches, the
result depends on the policies of the system file only: unlocked policies may be inserted, removed
or reordered anywhere among them, and the project may declare what it likes.  If any policy of the
operator matches, the result does not depend on the project. -/
theorem resolveTiered_pinned {ε κ : Type*} (compile : TrustPolicy → Except ε κ)
    (operator project : List TrustPolicy) (target : String) :
    ((∃ p ∈ operator, p.systemLocked = true ∧ p.matchesScope target = true) →
      ∀ operator' project' : List TrustPolicy,
        operator'.filter (·.systemLocked) = operator.filter (·.systemLocked) →
        resolveTiered compile operator' project' target =
          resolveTiered compile operator project target) ∧
    ((∃ p ∈ operator, p.matchesScope target = true) →
      ∀ project', resolveTiered compile operator project' target =
        resolveTiered compile operator project target) ∧
    resolveTiered compile operator project target =
      (mostSpecific (governingClass operator project target) target).mapM compile := by
  refine ⟨fun hpin _ _ hsame => resolveTiered_congr compile hpin hsame, ?_,
    resolveTiered_eq compile operator project target⟩
  rintro ⟨p, hp, hm⟩ project'
  have hany : operator.any (·.matchesScope target) = true := any_eq_true.2 ⟨p, hp, hm⟩
  rw [resolveTiered_eq, resolveTiered_eq, governingClass, governingClass, if_pos hany,
    if_pos hany]

/-- A policy of the system file for an organisation, and a more specific one of a user. -/
def pinnedPolicies : List TrustPolicy :=
  [⟨some (.pattern "ghcr.io/acme/*"), none, [], true⟩,
    ⟨some (.pattern "ghcr.io/acme/tool"), none, [], false⟩]

/-- The user's policy does not apply, and leaving it out changes nothing. -/
theorem pinnedPolicies_governed :
    resolveTiered (ε := Unit) .ok pinnedPolicies [] "ghcr.io/acme/tool" =
      .ok [⟨some (.pattern "ghcr.io/acme/*"), none, [], true⟩] ∧
    resolveTiered (ε := Unit) .ok (pinnedPolicies.take 1) [] "ghcr.io/acme/tool" =
      resolveTiered (ε := Unit) .ok pinnedPolicies [] "ghcr.io/acme/tool" := by
  refine ⟨by decide, ?_⟩
  exact (resolveTiered_pinned .ok pinnedPolicies [] "ghcr.io/acme/tool").1
    ⟨_, mem_cons_self, rfl, by decide⟩ _ _ (by decide)

end Ocx
