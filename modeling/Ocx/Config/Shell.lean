import Ocx.Fs.Path
import Ocx.Oci.PackageRef
import Ocx.Trust.Scope
import Ocx.Util.Layered
import Ocx.Util.Merge
import Ocx.Util.Schedule

/-!
# Shell consent

The table `[shell.consent]` of a configuration tier names the directories and the namespaces whose
projects may activate.  A namespace is written `<host>/<org>`, with an optional trailing `/*`; a
tier may also carve namespaces out again.  The tiers accumulate: what one of them names stays named.
-/

namespace Ocx

open List

/-! ### Namespace patterns -/

/-- Why a namespace pattern is refused. -/
inductive ConsentPatternError
  | empty
  | uppercase (pattern : String)
  | digestSeparator (pattern : String)
  /-- A `*` elsewhere than as a trailing `/*`. -/
  | wildcard (pattern : String)
  | emptyComponent (pattern : String)
  /-- Three or more components. -/
  | tooManyComponents (pattern : String)
  /-- A host without an organisation. -/
  | wholeRegistry (pattern : String)
  /-- An organisation that is no repository path. -/
  | organisation (pattern : String) (source : IdentifierError)
deriving DecidableEq, Repr

def withoutWildcard (pattern : String) : String :=
  match stripEnd ['/', '*'] pattern.toList with
  | some body => String.ofList body
  | none => pattern

/-- The grammar of namespaces: `<host>[:<port>]/<org>`, with an optional trailing `/*`. -/
def validateConsentPattern (pattern : String) : Except ConsentPatternError Unit :=
  if pattern = "" then .error .empty
  else if pattern.toList.any Char.isUpper then .error (.uppercase pattern)
  else if '@' ∈ pattern.toList then .error (.digestSeparator pattern)
  else if 1 < pattern.toList.count '*' ∨
      ('*' ∈ pattern.toList ∧ ¬ ['/', '*'].isSuffixOf pattern.toList) then
    .error (.wildcard pattern)
  else
    let components := (withoutWildcard pattern).toList.splitOn '/'
    if components.any List.isEmpty then .error (.emptyComponent pattern)
    else
      match components with
      | [_] => .error (.wholeRegistry pattern)
      | [_, org] =>
        match PackageRef.validateRepository (String.ofList org) with
        | .ok () => .ok ()
        | .error source => .error (.organisation pattern source)
      | _ => .error (.tooManyComponents pattern)

/-- A valid pattern, without its trailing `/*`. -/
def normalizeConsentPattern (pattern : String) : Except ConsentPatternError String :=
  match validateConsentPattern pattern with
  | .ok () => .ok (withoutWildcard pattern)
  | .error e => .error e

/-- A text `<host>/<org>` with two components and no `*`. -/
structure IsConsentPattern (pattern : String) : Prop where
  /-- There are two components, and neither is empty. -/
  two : ∃ host org, pattern.toList = host ++ '/' :: org ∧ host ≠ [] ∧ org ≠ [] ∧
    '/' ∉ host ∧ '/' ∉ org
  /-- The text matches on segment boundaries. -/
  plain : '*' ∉ pattern.toList

theorem IsConsentPattern.count_eq_one {pattern : String} (h : IsConsentPattern pattern) :
    pattern.toList.count '/' = 1 := by
  obtain ⟨host, org, htext, -, -, hhost, horg⟩ := h.two
  rw [htext, count_append, count_cons_self, count_eq_zero.2 hhost,
    count_eq_zero.2 horg]

theorem notMem_withoutWildcard {pattern : String} (hcount : pattern.toList.count '*' ≤ 1)
    (hend : '*' ∈ pattern.toList → ['/', '*'].isSuffixOf pattern.toList) :
    '*' ∉ (withoutWildcard pattern).toList := by
  intro hmem
  rw [withoutWildcard] at hmem
  cases hstrip : stripEnd ['/', '*'] pattern.toList with
  | none =>
    rw [hstrip] at hmem
    rw [stripEnd, if_pos (hend hmem)] at hstrip
    cases hstrip
  | some body =>
    rw [hstrip] at hmem
    simp only [String.toList_ofList] at hmem
    rw [stripEnd_eq_some.1 hstrip, count_append] at hcount
    have hpos : 0 < body.count '*' := count_pos_iff.2 hmem
    have hone : count '*' ['/', '*'] = 1 := by decide
    omega

/-- **A namespace names a host and an organisation.** -/
theorem isConsentPattern_of_normalize {raw pattern : String}
    (h : normalizeConsentPattern raw = .ok pattern) :
    pattern = withoutWildcard raw ∧ IsConsentPattern pattern := by
  rw [normalizeConsentPattern] at h
  cases hvalid : validateConsentPattern raw with
  | error e => rw [hvalid] at h; cases h
  | ok u =>
    rw [hvalid] at h
    cases h
    refine ⟨rfl, ?_⟩
    rw [validateConsentPattern] at hvalid
    split_ifs at hvalid with hempty hupper hat hwild
    rw [not_or, not_and_or, not_not, not_lt] at hwild
    dsimp only at hvalid
    split_ifs at hvalid with hcomponent
    generalize hsplit : (withoutWildcard raw).toList.splitOn '/' = parts at hvalid hcomponent
    match parts, hsplit, hvalid, hcomponent with
    | [host, org], hsplit, _, hcomponent =>
      have hplain := notMem_withoutWildcard hwild.1 fun hmem => hwild.2.resolve_left (· hmem)
      have hjoin : ['/'].intercalate ((withoutWildcard raw).toList.splitOn '/') =
          (withoutWildcard raw).toList := intercalate_splitOn '/'
      rw [hsplit] at hjoin
      simp only [List.any_cons, List.any_nil, Bool.or_false, Bool.or_eq_true,
        List.isEmpty_iff, not_or] at hcomponent
      refine ⟨⟨host, org, ?_, hcomponent.1, hcomponent.2, ?_, ?_⟩, hplain⟩
      · rw [← hjoin]; simp [List.intercalate]
      · exact notMem_of_mem_splitOn (s := (withoutWildcard raw).toList) (by simp [hsplit])
      · exact notMem_of_mem_splitOn (s := (withoutWildcard raw).toList) (by simp [hsplit])

/-! ### Accepted tables -/

namespace ScopeSpec

def includes : ScopeSpec → List String
  | pattern p => [p]
  | set includes _ => includes

/-- The patterns a scope carves out. -/
def excludes : ScopeSpec → List String
  | pattern _ => []
  | set _ excludes => excludes

end ScopeSpec

/-- The scope of a consent: some namespaces to cover, and namespaces to carve out. -/
structure ConsentScopeSpec where
  spec : ScopeSpec
  /-- A scope without patterns to cover would cover everything. -/
  includes_ne_nil : spec.includes ≠ []
  /-- Every pattern is a namespace. -/
  isConsentPattern : ∀ p, p ∈ spec.includes ∨ p ∈ spec.excludes → IsConsentPattern p

/-- Append the elements that are not there yet. -/
def extendUnique (target additions : List String) : List String := addAllNew target additions

@[simp] theorem mem_extendUnique {target additions : List String} {a : String} :
    a ∈ extendUnique target additions ↔ a ∈ target ∨ a ∈ additions := mem_addAllNew

namespace ConsentScopeSpec

/-- The namespaces to cover. -/
def includes (s : ConsentScopeSpec) : List String := s.spec.includes

/-- The namespaces to carve out. -/
def excludes (s : ConsentScopeSpec) : List String := s.spec.excludes

/-- The union of two scopes, in declaration order. -/
def accumulate (self other : ConsentScopeSpec) : ConsentScopeSpec where
  spec := .set (extendUnique self.includes other.includes)
    (extendUnique self.excludes other.excludes)
  includes_ne_nil := by
    obtain ⟨p, hp⟩ := List.exists_mem_of_ne_nil _ self.includes_ne_nil
    exact List.ne_nil_of_mem (mem_extendUnique.2 (.inl hp))
  isConsentPattern := by
    rintro p (hp | hp)
    · rcases mem_extendUnique.1 hp with h | h
      · exact self.isConsentPattern p (.inl h)
      · exact other.isConsentPattern p (.inl h)
    · rcases mem_extendUnique.1 hp with h | h
      · exact self.isConsentPattern p (.inr h)
      · exact other.isConsentPattern p (.inr h)

variable {other self : ConsentScopeSpec}

@[simp] theorem mem_includes_accumulate {p : String} :
    p ∈ (self.accumulate other).includes ↔ p ∈ self.includes ∨ p ∈ other.includes :=
  mem_extendUnique

@[simp] theorem mem_excludes_accumulate {p : String} :
    p ∈ (self.accumulate other).excludes ↔ p ∈ self.excludes ∨ p ∈ other.excludes :=
  mem_extendUnique

/-- **A scope consents to the namespaces it names.** No other source matches, because a source
has no segment behind its organisation. -/
theorem matchesTarget_iff (s : ConsentScopeSpec) {source : String}
    (hsource : source.toList.count '/' = 1) :
    s.spec.matchesTarget source = true ↔ source ∈ s.includes ∧ source ∉ s.excludes := by
  have hany : ∀ patterns : List String, (∀ p ∈ patterns, IsConsentPattern p) →
      (patterns.any (patternMatches · source) = true ↔ source ∈ patterns) := by
    intro patterns h
    rw [List.any_eq_true]
    constructor
    · rintro ⟨p, hp, hmatch⟩
      rwa [(patternMatches_iff_eq (h p hp).plain (h p hp).count_eq_one hsource).1 hmatch]
    · intro hmem
      exact ⟨source, hmem, (patternMatches_iff_eq (h source hmem).plain
        (h source hmem).count_eq_one hsource).2 rfl⟩
  obtain ⟨spec, hne, hpattern⟩ := s
  have hincludes := hany spec.includes fun p hp => hpattern p (.inl hp)
  have hexcludes := hany spec.excludes fun p hp => hpattern p (.inr hp)
  cases spec with
  | pattern p =>
    simpa [ScopeSpec.matchesTarget, includes, excludes, ScopeSpec.includes, ScopeSpec.excludes]
      using hincludes
  | set inc exc =>
    simp only [ScopeSpec.includes, ScopeSpec.excludes] at hincludes hexcludes hne
    simp [ScopeSpec.matchesTarget, includes, excludes, ScopeSpec.includes, ScopeSpec.excludes, hne,
      hincludes, ← hexcludes]

end ConsentScopeSpec

/-- The whitelist of a tier, or of several tiers together. -/
structure ShellConsent where
  /-- The directories, as written. -/
  paths : List String
  namespaces : Option ConsentScopeSpec

namespace ShellConsent

def empty : ShellConsent := ⟨[], none⟩

/-- The namespaces a whitelist covers. -/
def includes (c : ShellConsent) : List String := c.namespaces.elim [] (·.includes)

/-- The namespaces a whitelist carves out. -/
def excludes (c : ShellConsent) : List String := c.namespaces.elim [] (·.excludes)

/-- The accumulation of two whitelists. -/
def merge (self other : ShellConsent) : ShellConsent where
  paths := extendUnique self.paths other.paths
  namespaces := mergeOption ConsentScopeSpec.accumulate self.namespaces other.namespaces

@[simp] theorem merge_empty (c : ShellConsent) : c.merge .empty = c := by
  obtain ⟨paths, _ | spec⟩ := c <;> rfl

variable {other self : ShellConsent}

@[simp] theorem mem_paths_merge {p : String} :
    p ∈ (self.merge other).paths ↔ p ∈ self.paths ∨ p ∈ other.paths := mem_extendUnique

@[simp] theorem mem_includes_merge {p : String} :
    p ∈ (self.merge other).includes ↔ p ∈ self.includes ∨ p ∈ other.includes := by
  obtain ⟨_, _ | _⟩ := self <;> obtain ⟨_, _ | _⟩ := other <;> simp [merge, mergeOption, includes]

@[simp] theorem mem_excludes_merge {p : String} :
    p ∈ (self.merge other).excludes ↔ p ∈ self.excludes ∨ p ∈ other.excludes := by
  obtain ⟨_, _ | _⟩ := self <;> obtain ⟨_, _ | _⟩ := other <;> simp [merge, mergeOption, excludes]

def grantsNamespace (c : ShellConsent) (source : String) : Bool :=
  c.namespaces.any (·.spec.matchesTarget source)

theorem grantsNamespace_iff (c : ShellConsent) {source : String}
    (hsource : source.toList.count '/' = 1) :
    c.grantsNamespace source = true ↔ source ∈ c.includes ∧ source ∉ c.excludes := by
  obtain ⟨paths, _ | spec⟩ := c
  · simp [grantsNamespace, includes]
  · exact spec.matchesTarget_iff hsource

end ShellConsent

/-! ### Tables as they are written -/

inductive RawNamespaces
  | pattern (pattern : String)
  /-- The lists `include` and `exclude`, and a key that is neither of them. -/
  | table (includes excludes : Option (List String)) (unknown : Option String)

/-- The table `[shell.consent]`. -/
structure RawConsent where
  paths : List String
  namespaces : Option RawNamespaces
  /-- A key that is neither of them. -/
  unknown : Option String

inductive ConsentRefusal
  /-- A key that this version does not know. -/
  | unknownKey (key : String)
  /-- A table of namespaces without a list. -/
  | missingInclude
  /-- An empty list of namespaces to cover. -/
  | emptyInclude
  /-- A pattern outside the grammar. -/
  | pattern (error : ConsentPatternError)
deriving DecidableEq, Repr

/-- The normalized patterns of a list, or the first error. -/
def normalizeAll (patterns : List String) : Except ConsentPatternError (List String) :=
  patterns.mapM normalizeConsentPattern

theorem normalizeAll_eq_ok {raw patterns : List String} (h : normalizeAll raw = .ok patterns) :
    patterns = raw.map withoutWildcard ∧ ∀ p ∈ patterns, IsConsentPattern p := by
  have hall := (forall₂_of_mapM_eq_ok h).imp fun _ _ => isConsentPattern_of_normalize
  constructor
  · simpa using map_eq_of_forall₂ (f := id) (hall.imp fun _ _ h => h.1)
  · intro p hp
    obtain ⟨_, -, -, hp⟩ := exists_of_forall₂ hall hp
    exact hp

def RawNamespaces.deserialize : RawNamespaces → Except ConsentRefusal ConsentScopeSpec
  | pattern p =>
    match h : normalizeConsentPattern p with
    | .error e => .error (.pattern e)
    | .ok q => .ok ⟨.pattern q, by simp [ScopeSpec.includes],
        by simpa [ScopeSpec.includes, ScopeSpec.excludes] using (isConsentPattern_of_normalize h).2⟩
  | table _ _ (some key) => .error (.unknownKey key)
  | table none none none => .error .missingInclude
  | table includes excludes none =>
    match hinc : normalizeAll (includes.getD []) with
    | .error e => .error (.pattern e)
    | .ok inc =>
      if hne : inc = [] then .error .emptyInclude
      else
        match hexc : normalizeAll (excludes.getD []) with
        | .error e => .error (.pattern e)
        | .ok exc => .ok ⟨.set inc exc, hne, fun p hp => hp.elim
            ((normalizeAll_eq_ok hinc).2 p) ((normalizeAll_eq_ok hexc).2 p)⟩

/-- Read a table. -/
def RawConsent.deserialize (raw : RawConsent) : Except ConsentRefusal ShellConsent :=
  match raw.unknown, raw.namespaces with
  | some key, _ => .error (.unknownKey key)
  | none, none => .ok ⟨raw.paths, none⟩
  | none, some namespaces =>
    match namespaces.deserialize with
    | .error e => .error e
    | .ok spec => .ok ⟨raw.paths, some spec⟩

/-- The patterns to cover, as written. -/
def RawConsent.includePatterns (raw : RawConsent) : List String :=
  match raw.namespaces with
  | none => []
  | some (.pattern p) => [p]
  | some (.table includes _ _) => includes.getD []

/-- The patterns to carve out, as written. -/
def RawConsent.excludePatterns (raw : RawConsent) : List String :=
  match raw.namespaces with
  | some (.table _ excludes _) => excludes.getD []
  | _ => []

theorem RawNamespaces.deserialize_eq_ok {raw : RawNamespaces} {spec : ConsentScopeSpec}
    (h : raw.deserialize = .ok spec) (paths : List String) (unknown : Option String) :
    spec.includes = (RawConsent.includePatterns ⟨paths, some raw, unknown⟩).map withoutWildcard ∧
      spec.excludes =
        (RawConsent.excludePatterns ⟨paths, some raw, unknown⟩).map withoutWildcard := by
  match raw with
  | pattern p =>
    rw [deserialize] at h
    split at h
    · cases h
    · rename_i q hq
      cases h
      obtain ⟨rfl, -⟩ := isConsentPattern_of_normalize hq
      exact ⟨rfl, rfl⟩
  | table _ _ (some key) => rw [deserialize] at h; cases h
  | table none none none => rw [deserialize] at h; cases h
  | table (some includes) excludes none | table none (some excludes) none =>
    rw [deserialize] at h
    · split at h
      · cases h
      · rename_i inc hinc
        split_ifs at h with hne
        split at h
        · cases h
        · rename_i exc hexc
          cases h
          exact ⟨(normalizeAll_eq_ok hinc).1, (normalizeAll_eq_ok hexc).1⟩
    · simp

variable {c : ShellConsent} {raw : RawConsent} {tiers : List ConsentTier} {tier : ConsentTier}
  {result : Option ShellConsent}

theorem RawConsent.deserialize_eq_ok (h : raw.deserialize = .ok c) :
    c.paths = raw.paths ∧ c.includes = raw.includePatterns.map withoutWildcard ∧
      c.excludes = raw.excludePatterns.map withoutWildcard := by
  obtain ⟨paths, namespaces, unknown⟩ := raw
  rw [deserialize] at h
  split at h
  · cases h
  · rename_i hunknown hnamespaces
    cases h
    simp only at hnamespaces
    subst hnamespaces
    exact ⟨rfl, rfl, rfl⟩
  · rename_i raw hunknown hnamespaces
    simp only at hnamespaces
    subst hnamespaces
    split at h
    · cases h
    · rename_i spec hspec
      cases h
      exact ⟨rfl, RawNamespaces.deserialize_eq_ok hspec paths unknown⟩

/-- A table carves something out. -/
def RawConsent.withdraws (raw : RawConsent) : Bool := !raw.excludePatterns.isEmpty

/-- Read a table. A refused one is dropped from its file, unless it carves something out: then the
file is refused. -/
def parseStrippingRefusedConsent (raw : RawConsent) : Except ConsentRefusal (Option ShellConsent) :=
  match raw.deserialize with
  | .ok c => .ok (some c)
  | .error e => if raw.withdraws then .error e else .ok none

/-- The whitelist that a managed payload may contribute. Without a pinned digest it may only take
grants away: what it carves out is kept, and what it covers is exactly that. -/
def guardManagedShellConsent (source : PackageRef) (c : ShellConsent) : Option ShellConsent :=
  if source.digest.isSome then some c
  else
    match c.namespaces with
    | none => none
    | some spec =>
      if h : spec.excludes = [] then none
      else some ⟨[], some ⟨.set spec.excludes spec.excludes, h,
        fun p hp => spec.isConsentPattern p (.inr (hp.elim id id))⟩⟩

/-! ### The environment -/

/-- The directories of `OCX_CONSENT_PATHS`. -/
def parseConsentPaths (value : String) : List String :=
  ((value.toList.splitOn ':').filter fun path => trim path ≠ []).map String.ofList

/-- The patterns of `OCX_CONSENT_NAMESPACES`, as written. -/
def consentTokens (value : String) : List String :=
  (((value.toList.splitOn ',').map trim).filter (· ≠ [])).map String.ofList

/-- The namespaces of `OCX_CONSENT_NAMESPACES`. One malformed pattern discards all of them. -/
def parseConsentNamespaces (value : String) : Option ConsentScopeSpec :=
  match h : normalizeAll (consentTokens value) with
  | .error _ => none
  | .ok patterns =>
    if hne : patterns = [] then none
    else some ⟨.set (extendUnique [] patterns) [],
      by
        obtain ⟨p, hp⟩ := List.exists_mem_of_ne_nil _ hne
        exact List.ne_nil_of_mem (mem_extendUnique.2 (.inr hp)),
      fun p hp => (normalizeAll_eq_ok h).2 p
        (by simpa [ScopeSpec.includes, ScopeSpec.excludes] using hp)⟩

/-- The whitelist of the environment. -/
def envChannel (paths namespaces : Option String) : ShellConsent :=
  ⟨(paths.map parseConsentPaths).getD [], namespaces.bind parseConsentNamespaces⟩

/-! ### Tiers -/

/-- A tier that may name projects to activate. -/
inductive ConsentTier
  /-- A configuration file of this host. -/
  | file (table : Option RawConsent)
  /-- A managed payload, and the identifier it was fetched from. -/
  | managed (source : PackageRef) (table : Option RawConsent)
  /-- The variables `OCX_CONSENT_PATHS` and `OCX_CONSENT_NAMESPACES`. -/
  | environment (paths namespaces : Option String)

namespace ConsentTier

/-- What a tier contributes to the whitelist. A managed payload that cannot be read is skipped. -/
def contribution : ConsentTier → Except ConsentRefusal (Option ShellConsent)
  | file none => .ok none
  | file (some raw) => parseStrippingRefusedConsent raw
  | managed _ none => .ok none
  | managed source (some raw) =>
    match parseStrippingRefusedConsent raw with
    | .ok (some c) => .ok (guardManagedShellConsent source c)
    | _ => .ok none
  | environment paths namespaces => .ok (some (envChannel paths namespaces))

end ConsentTier

/-- Merge the contribution of a tier into the whitelist. -/
def mergeTier (acc : ShellConsent) (tier : ConsentTier) : Except ConsentRefusal ShellConsent :=
  match tier.contribution with
  | .error e => .error e
  | .ok none => .ok acc
  | .ok (some c) => .ok (acc.merge c)

/-- The whitelist that tiers make, merged in order. -/
def loadConsent (tiers : List ConsentTier) : Except ConsentRefusal ShellConsent :=
  tiers.foldlM mergeTier .empty

/-! ### What tiers name -/

def RawConsent.accepted (raw : RawConsent) : Bool := raw.deserialize.toBool

namespace ConsentTier

/-- The patterns that a tier grants, as written. A refused table and an unpinned payload grant
none. -/
def includePatterns : ConsentTier → List String
  | file (some raw) => if raw.accepted then raw.includePatterns else []
  | managed source (some raw) =>
    if raw.accepted && source.digest.isSome then raw.includePatterns else []
  | environment _ (some value) =>
    if (normalizeAll (consentTokens value)).toBool then consentTokens value else []
  | _ => []

/-- The patterns that a tier withdraws, as written. -/
def excludePatterns : ConsentTier → List String
  | file (some raw) | managed _ (some raw) => if raw.accepted then raw.excludePatterns else []
  | _ => []

/-- The directories that a tier grants, as written. -/
def consentPaths : ConsentTier → List String
  | file (some raw) => if raw.accepted then raw.paths else []
  | managed source (some raw) => if raw.accepted && source.digest.isSome then raw.paths else []
  | environment (some paths) _ => parseConsentPaths paths
  | _ => []

def Grants (tier : ConsentTier) (source : String) : Prop :=
  ∃ pattern ∈ tier.includePatterns, withoutWildcard pattern = source

def Withdraws (tier : ConsentTier) (source : String) : Prop :=
  ∃ pattern ∈ tier.excludePatterns, withoutWildcard pattern = source

end ConsentTier

/-- A whitelist names what the tiers name. It may also cover what it carves out, which is the form
in which an unpinned payload is kept. -/
structure Accumulates (c : ShellConsent) (tiers : List ConsentTier) : Prop where
  /-- The directories are those of the tiers. -/
  paths : ∀ p, p ∈ c.paths ↔ ∃ tier ∈ tiers, p ∈ tier.consentPaths
  /-- What is carved out is what the tiers withdraw. -/
  excludes : ∀ s, s ∈ c.excludes ↔ ∃ tier ∈ tiers, tier.Withdraws s
  includes_of : ∀ s, (∃ tier ∈ tiers, tier.Grants s) → s ∈ c.includes
  /-- What is covered is granted by a tier, or carved out. -/
  of_includes : ∀ s ∈ c.includes, (∃ tier ∈ tiers, tier.Grants s) ∨ s ∈ c.excludes

open ShellConsent ConsentTier

namespace Accumulates

theorem empty : Accumulates .empty [] := by
  constructor <;> simp [ShellConsent.empty, ShellConsent.includes, ShellConsent.excludes]

theorem merge {d : ShellConsent} {more : List ConsentTier} (hc : Accumulates c tiers)
    (hd : Accumulates d more) : Accumulates (c.merge d) (tiers ++ more) where
  paths p := by
    simp [mem_paths_merge, hc.paths, hd.paths, mem_append, or_and_right, exists_or]
  excludes s := by
    simp [mem_excludes_merge, hc.excludes, hd.excludes, mem_append, or_and_right, exists_or]
  includes_of s := by
    rintro ⟨tier, htier, hgrants⟩
    rw [mem_includes_merge]
    rcases mem_append.1 htier with h | h
    · exact .inl (hc.includes_of s ⟨tier, h, hgrants⟩)
    · exact .inr (hd.includes_of s ⟨tier, h, hgrants⟩)
  of_includes s hs := by
    rw [mem_excludes_merge]
    rcases mem_includes_merge.1 hs with h | h
    · rcases hc.of_includes s h with ⟨tier, htier, hgrants⟩ | h
      · exact .inl ⟨tier, mem_append_left _ htier, hgrants⟩
      · exact .inr (.inl h)
    · rcases hd.of_includes s h with ⟨tier, htier, hgrants⟩ | h
      · exact .inl ⟨tier, mem_append_right _ htier, hgrants⟩
      · exact .inr (.inr h)

theorem of_silent (hpaths : tier.consentPaths = [])
    (hinc : tier.includePatterns = []) (hexc : tier.excludePatterns = []) :
    Accumulates .empty [tier] := by
  constructor <;> simp [ShellConsent.empty, ShellConsent.includes, ShellConsent.excludes,
    ConsentTier.Grants, ConsentTier.Withdraws, hpaths, hinc, hexc]

theorem of_deserialize (h : raw.deserialize = .ok c) (hpaths : tier.consentPaths = raw.paths)
    (hinc : tier.includePatterns = raw.includePatterns)
    (hexc : tier.excludePatterns = raw.excludePatterns) : Accumulates c [tier] := by
  obtain ⟨hp, hi, he⟩ := RawConsent.deserialize_eq_ok h
  have hgrants : ∀ s, s ∈ c.includes ↔ ∃ t ∈ [tier], t.Grants s := by
    simp [ConsentTier.Grants, hinc, hi]
  exact
    { paths := by simp [hpaths, hp]
      excludes := by simp [ConsentTier.Withdraws, hexc, he]
      includes_of := fun s => (hgrants s).2
      of_includes := fun s hs => .inl ((hgrants s).1 hs) }

end Accumulates

theorem parse_cases (raw : RawConsent) :
    (∃ c, raw.deserialize = .ok c ∧ parseStrippingRefusedConsent raw = .ok (some c)) ∨
      raw.accepted = false ∧ ∀ c, parseStrippingRefusedConsent raw ≠ .ok (some c) := by
  rw [parseStrippingRefusedConsent, RawConsent.accepted]
  cases raw.deserialize with
  | ok c => exact .inl ⟨c, rfl, rfl⟩
  | error e => exact .inr ⟨rfl, fun c => by dsimp only; split_ifs <;> simp⟩

theorem accepted_of_deserialize (h : raw.deserialize = .ok c) : raw.accepted = true := by
  rw [RawConsent.accepted, h]; rfl

theorem accumulates_guard {source : PackageRef}
    (h : raw.deserialize = .ok c) :
    Accumulates ((guardManagedShellConsent source c).getD .empty)
      [.managed source (some raw)] := by
  have hacc := accepted_of_deserialize h
  obtain ⟨hp, hi, he⟩ := RawConsent.deserialize_eq_ok h
  rw [guardManagedShellConsent]
  split_ifs with hdigest
  · exact .of_deserialize h (by simp [consentPaths, hacc, hdigest])
      (by simp [includePatterns, hacc, hdigest])
      (by simp [excludePatterns, hacc])
  · have hpaths : (managed source (some raw)).consentPaths = [] := by
      simp [consentPaths, hdigest]
    have hinc : (managed source (some raw)).includePatterns = [] := by
      simp [includePatterns, hdigest]
    have hexc : (managed source (some raw)).excludePatterns = raw.excludePatterns := by
      simp [excludePatterns, hacc]
    have hwithdraw : ∀ s, s ∈ c.excludes ↔ ∃ tier ∈ [managed source (some raw)],
        tier.Withdraws s := by
      simp [ConsentTier.Withdraws, hexc, he]
    obtain ⟨paths, _ | spec⟩ := c
    · refine .of_silent hpaths hinc ?_
      rw [hexc]
      exact map_eq_nil_iff.1 he.symm
    · simp only
      split_ifs with hnil
      · refine .of_silent hpaths hinc ?_
        rw [hexc]
        exact map_eq_nil_iff.1 (he.symm.trans hnil)
      · exact
          { paths := by simp [hpaths]
            excludes := hwithdraw
            includes_of := by simp [ConsentTier.Grants, hinc]
            of_includes := fun s hs => .inr hs }

theorem accumulates_environment (paths namespaces : Option String) :
    Accumulates (envChannel paths namespaces) [.environment paths namespaces] := by
  have hpaths : ∀ p, p ∈ (envChannel paths namespaces).paths ↔
      p ∈ (environment paths namespaces).consentPaths := by
    cases paths <;> simp [envChannel, consentPaths]
  have hexc : (envChannel paths namespaces).excludes = [] := by
    rw [excludes, envChannel]
    cases namespaces with
    | none => rfl
    | some value =>
      rw [Option.bind_some, parseConsentNamespaces]
      split
      · rfl
      · split_ifs <;> rfl
  have hinc : ∀ s, s ∈ (envChannel paths namespaces).includes ↔
      (environment paths namespaces).Grants s := by
    intro s
    rw [includes, envChannel, ConsentTier.Grants]
    cases namespaces with
    | none => simp [includePatterns]
    | some value =>
      rw [Option.bind_some, parseConsentNamespaces]
      split
      · rename_i e he
        simp [includePatterns, he, Except.toBool]
      · rename_i patterns hpatterns
        obtain ⟨hmap, -⟩ := normalizeAll_eq_ok hpatterns
        have hmem : s ∈ patterns ↔ ∃ p ∈ consentTokens value, withoutWildcard p = s := by
          rw [hmap, mem_map]
        have hok : (normalizeAll (consentTokens value)).toBool = true := by rw [hpatterns]; rfl
        rw [includePatterns, if_pos hok, ← hmem]
        split_ifs with hne
        · simp [hne]
        · simp [ConsentScopeSpec.includes, ScopeSpec.includes]
  exact
    { paths := by simpa using hpaths
      excludes := by simp [hexc, ConsentTier.Withdraws, excludePatterns]
      includes_of := by simpa using fun s => (hinc s).2
      of_includes := fun s hs => .inl ⟨_, by simp, (hinc s).1 hs⟩ }

theorem accumulates_contribution
    (h : tier.contribution = .ok result) : Accumulates (result.getD .empty) [tier] := by
  cases tier with
  | environment paths namespaces =>
    cases h
    exact accumulates_environment paths namespaces
  | file table =>
    cases table with
    | none => cases h; exact .of_silent rfl rfl rfl
    | some raw =>
      rcases parse_cases raw with ⟨c, hc, hparse⟩ | ⟨hrefused, hparse⟩
      · obtain rfl := Except.ok.inj (hparse.symm.trans h)
        have hacc := accepted_of_deserialize hc
        exact .of_deserialize hc (if_pos hacc) (if_pos hacc) (if_pos hacc)
      · obtain rfl : result = none :=
          Option.eq_none_iff_forall_ne_some.2 fun c hc => hparse c (hc ▸ h)
        refine .of_silent ?_ ?_ ?_ <;>
          simp [consentPaths, includePatterns, excludePatterns, hrefused]
  | managed source table =>
    cases table with
    | none => cases h; exact .of_silent rfl rfl rfl
    | some raw =>
      rw [contribution] at h
      rcases parse_cases raw with ⟨c, hc, hparse⟩ | ⟨hrefused, hparse⟩
      · rw [hparse] at h
        cases h
        exact accumulates_guard hc
      · split at h
        · rename_i c hc
          exact absurd hc (hparse c)
        · cases h
          refine .of_silent ?_ ?_ ?_ <;>
            simp [consentPaths, includePatterns, excludePatterns, hrefused]

theorem mergeTier_eq (acc : ShellConsent) (tier : ConsentTier) :
    mergeTier acc tier = tier.contribution.map fun result => acc.merge (result.getD .empty) := by
  rw [mergeTier]
  rcases tier.contribution with e | _ | c <;> simp [Except.map]

/-- **The whitelist names what its tiers name.** -/
theorem accumulates_loadConsent (h : loadConsent tiers = .ok c) : Accumulates c tiers := by
  refine foldlM_invariant h (fun done acc => Accumulates acc done) .empty ?_
  intro done acc tier _ next hnext hacc
  rw [mergeTier_eq] at hnext
  obtain ⟨result, hresult, rfl⟩ := map_eq_ok_iff.1 hnext
  exact hacc.merge (accumulates_contribution hresult)

theorem exists_loadConsent_iff :
    (∃ c, loadConsent tiers = .ok c) ↔ ∀ tier ∈ tiers, ∃ r, tier.contribution = .ok r := by
  suffices ∀ acc, (∃ c, tiers.foldlM mergeTier acc = .ok c) ↔
      ∀ tier ∈ tiers, ∃ r, tier.contribution = .ok r from this .empty
  induction tiers with
  | nil => intro acc; exact iff_of_true ⟨acc, rfl⟩ (by simp)
  | cons tier tiers ih =>
    intro acc
    rw [forall_mem_cons, foldlM_cons, mergeTier_eq]
    cases tier.contribution with
    | error e => simp [Except.map, bind, Except.bind]
    | ok r => exact (ih _).trans (by simp)

theorem exists_contribution_managed (source : PackageRef) (table : Option RawConsent) :
    ∃ r, (managed source table).contribution = .ok r := by
  cases table with
  | none => exact ⟨none, rfl⟩
  | some raw =>
    rw [contribution]
    split
    · exact ⟨_, rfl⟩
    · exact ⟨none, rfl⟩

/-! ### Directories -/

/-- Why an entry can never match. -/
inductive EntryDefect
  | starNotLast
  | starInsideComponent
  /-- A `*` with no directory before it. -/
  | starNamesNoDirectory
  | parentDirComponent
  /-- A leading `~` without a home directory. -/
  | unresolvableHome
  | unsupportedTildeUser
  | relativePath
deriving DecidableEq, Repr

def expandAgainst (home : Option (List Component)) (entry : List Component) :
    Except EntryDefect (List Component) :=
  match entry with
  | .normal first :: rest =>
    if first.toList.head? = some '~' then
      if first = "~" then
        match home with
        | some home => .ok (home ++ rest)
        | none => .error .unresolvableHome
      else .error .unsupportedTildeUser
    else .ok entry
  | _ => .ok entry

/-- The directory whose subtree an entry `<directory>/*` grants. -/
def subtreePrefix (entry : List Component) : Option (List Component) :=
  if entry.getLast? = some (.normal "*") ∧ entry.dropLast.any (· matches .normal _) then
    some entry.dropLast
  else none

/-- An entry of `paths` grants a project directory: the directory itself, or one in the subtree it
names. -/
def consentPathMatches (home : Option (List Component)) (entry projectDir : String) : Bool :=
  let project := components projectDir
  if .parentDir ∈ project then false
  else
    match expandAgainst home (components entry) with
    | .error _ => false
    | .ok entry =>
      match subtreePrefix entry with
      | some directory => directory.isPrefixOf project
      | none => project = entry

/-- The first defect among the components of an entry that are left, by their `*`. -/
def starDefect (entry : List Component) : List Component → Option EntryDefect
  | [] => none
  | .normal name :: rest =>
    if '*' ∉ name.toList then starDefect entry rest
    else if name ≠ "*" then some .starInsideComponent
    else if rest ≠ [] then some .starNotLast
    else if subtreePrefix entry = none then some .starNamesNoDirectory
    else starDefect entry rest
  | _ :: rest => starDefect entry rest

def consentEntryDefect (home : Option (List Component)) (entry : String) : Option EntryDefect :=
  match expandAgainst home (components entry) with
  | .error defect => some defect
  | .ok entry =>
    match starDefect entry entry with
    | some defect => some defect
    | none =>
      if .parentDir ∈ entry then some .parentDirComponent
      else if entry.head? ≠ some .rootDir then some .relativePath
      else none

section Directories

variable {entry directory : List Component}

/-- No component carries a `*`. -/
def Starless (path : List Component) : Prop := ∀ name, .normal name ∈ path → '*' ∉ name.toList

theorem subtreePrefix_eq_some_iff : subtreePrefix entry = some directory ↔
    entry = directory ++ [.normal "*"] ∧ ∃ name, .normal name ∈ directory := by
  have hnamed : (directory.any (· matches .normal _)) = true ↔
      ∃ name, .normal name ∈ directory := by
    rw [any_eq_true]
    constructor
    · rintro ⟨component, hmem, hcomponent⟩
      cases component with
      | normal name => exact ⟨name, hmem⟩
      | _ => cases hcomponent
    · rintro ⟨name, hmem⟩
      exact ⟨_, hmem, rfl⟩
  unfold subtreePrefix
  rw [← hnamed, Option.ite_none_right_eq_some, Option.some.injEq]
  constructor
  · rintro ⟨⟨hlast, hany⟩, rfl⟩
    exact ⟨(dropLast_append_getLast? _ hlast).symm, hany⟩
  · rintro ⟨rfl, hany⟩
    rw [dropLast_concat, getLast?_concat]
    exact ⟨⟨rfl, hany⟩, rfl⟩

theorem Starless.starDefect_append (h : Starless directory) (rest : List Component) :
    starDefect entry (directory ++ rest) = starDefect entry rest := by
  induction directory with
  | nil => rfl
  | cons component directory ih =>
    have hrest := ih fun name hname => h name (mem_cons_of_mem _ hname)
    cases component with
    | normal name =>
      rw [cons_append, starDefect, if_pos (h name mem_cons_self), hrest]
    | _ => exact hrest

/-- An entry with no `*`, or with one as its last component after a named directory, is without
defect when it is below the root and has no `..`. -/
theorem consentEntryDefect_eq_none {home : Option (List Component)} {text : String}
    (hexpand : expandAgainst home (components text) = .ok entry)
    (hstar : Starless entry ∨ ∃ directory, subtreePrefix entry = some directory ∧
      Starless directory)
    (hparent : .parentDir ∉ entry) (hroot : entry.head? = some .rootDir) :
    consentEntryDefect home text = none := by
  have hdefect : starDefect entry entry = none := by
    rcases hstar with hstarless | ⟨directory, hprefix, hstarless⟩
    · have hall : starDefect entry (entry ++ []) = none := hstarless.starDefect_append []
      rwa [append_nil] at hall
    · have hentry := (subtreePrefix_eq_some_iff.1 hprefix).1
      nth_rewrite 2 [hentry]
      rw [hstarless.starDefect_append]
      simp [starDefect, hprefix]
  simp [consentEntryDefect, hexpand, hdefect, hparent, hroot]

/-- **Consent for directories.** An entry grants a project directory exactly when it has no defect
and spells the directory, or a directory above it with a `*` behind. -/
theorem consentPathMatches_iff (home : Option (List Component)) (entry projectDir : String)
    (habsolute : (components projectDir).head? = some .rootDir)
    (hparent : .parentDir ∉ components projectDir) (hstar : Starless (components projectDir)) :
    consentPathMatches home entry projectDir = true ↔
      consentEntryDefect home entry = none ∧
        ∃ expanded, expandAgainst home (components entry) = .ok expanded ∧
          (components projectDir = expanded ∨
            ∃ directory, expanded = directory ++ [.normal "*"] ∧
              (∃ name, .normal name ∈ directory) ∧ directory <+: components projectDir) := by
  unfold consentPathMatches
  generalize components projectDir = project at habsolute hparent hstar ⊢
  simp only [if_neg hparent]
  cases hexpand : expandAgainst home (components entry) with
  | error defect => simp
  | ok expanded =>
    simp only [Except.ok.injEq, exists_eq_left']
    cases hprefix : subtreePrefix expanded with
    | some directory =>
      obtain ⟨hexpanded, name, hname⟩ := subtreePrefix_eq_some_iff.1 hprefix
      refine isPrefixOf_iff_prefix.trans ?_
      constructor
      · intro hle
        have hsub := hle.subset
        refine ⟨consentEntryDefect_eq_none hexpand
          (.inr ⟨directory, hprefix, fun name hname => hstar name (hsub hname)⟩) ?_ ?_,
          .inr ⟨directory, hexpanded, ⟨name, hname⟩, hle⟩⟩
        · rw [hexpanded, mem_append, mem_singleton]
          rintro (hmem | hmem)
          · exact hparent (hsub hmem)
          · cases hmem
        · obtain ⟨first, rest, rfl⟩ := exists_cons_of_ne_nil (ne_nil_of_mem hname)
          obtain ⟨tail, rfl⟩ := hle
          rw [hexpanded]
          exact habsolute
      · rintro ⟨-, rfl | ⟨directory', heq, -, hle⟩⟩
        · exact absurd (hstar "*" (by rw [hexpanded]; simp)) (by decide)
        · rw [hexpanded, append_left_inj] at heq
          exact heq ▸ hle
    | none =>
      simp only [decide_eq_true_eq]
      constructor
      · rintro rfl
        exact ⟨consentEntryDefect_eq_none hexpand (.inl hstar) hparent habsolute, .inl rfl⟩
      · rintro ⟨-, heq | ⟨directory, hexpanded, hname, -⟩⟩
        · exact heq
        · simp [subtreePrefix_eq_some_iff.2 ⟨hexpanded, hname⟩] at hprefix

/-- A subtree below the home directory grants a directory in it. -/
theorem consent_below_home :
    consentPathMatches (some [.rootDir, .normal "home"]) "~/work/./*" "/home/work/ocx" = true :=
  (consentPathMatches_iff _ _ _ (by decide) (by decide) (by
    have hcomponents : components "/home/work/ocx" =
      [.rootDir, .normal "home", .normal "work", .normal "ocx"] := by decide
    simp [Starless, hcomponents])).2
    ⟨by decide, [.rootDir, .normal "home", .normal "work", .normal "*"], by decide,
      .inr ⟨[.rootDir, .normal "home", .normal "work"], rfl, ⟨"home", by simp⟩, by decide⟩⟩

end Directories

end Ocx
