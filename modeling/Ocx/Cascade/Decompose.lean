import Ocx.Oci.Manifest
import Ocx.Util.Sorted
import Ocx.Version.Tag

/-!
# Cascade decomposition

Publishing a version moves the rolling tags above it, unless a later version already holds them.
The cascade is decided level by level: a level is blocked when a version in its range carries the
platform that is being pushed.
-/

namespace Ocx

open List Option

variable {v p t w current : Version} {a : AliasTag} {targets : List Version}
  {variant : Option String}

open Version

abbrev VersionSet := Std.ExtTreeSet Version

/-! ### The chain of a version -/

/-- The cascade chain of a version taken alone. -/
structure CascadeTargets where
  /-- The rolling versions, the most specific first. -/
  targets : List Version
  /-- Whether the track root follows. -/
  latestEligible : Bool
deriving DecidableEq

/-- The cascade chain of a version: none for a build-less pre-release, the parent pre-release for
one with a build. -/
def decomposeTargets (v : Version) : CascadeTargets :=
  if v.hasPrerelease && !v.hasBuild then ⟨[], false⟩
  else if v.hasPrerelease then ⟨v.parent.toList, false⟩
  else ⟨v.ancestors, true⟩

/-- Every rolling tag that should carry the content of `v` when nothing newer blocks it. -/
def aliasChain (v : Version) : List AliasTag :=
  (decomposeTargets v).targets.map .version ++
    if (decomposeTargets v).latestEligible then [.root v.variant] else []

/-! ### Blocking ranges -/

structure CascadeLevel where
  target : Version
  /-- The versions that could prevent the cascade. -/
  blockers : List Version
deriving DecidableEq

/-- A cascade chain with its blocking ranges. -/
structure CascadeDecomposition where
  /-- The levels, the most specific first. -/
  levels : List CascadeLevel
  /-- Whether the track root follows. -/
  latestEligible : Bool
  /-- The versions that could keep the track root. -/
  latestBlockers : List Version
deriving DecidableEq

/-- The versions after `v` that belong to the same pre-release and name a build. -/
def prereleaseBlockers (v : Version) (others : VersionSet) : List Version :=
  (others.toList.filter (v < ·)).takeWhile fun w =>
    w.variant == v.variant && w.major == v.major && w.minor == v.minor && w.patch == v.patch &&
      w.prerelease == v.prerelease && w.hasBuild

/-- The levels above `current`, each blocked by the stable versions strictly between its
neighbours. -/
def stableLevels (others : VersionSet) : Version → List Version → List CascadeLevel
  | _, [] => []
  | current, target :: targets =>
    ⟨target, (others.toList.filter fun w => current < w ∧ w < target).filter (!·.hasPrerelease)⟩ ::
      stableLevels others target targets

/-- The stable versions of the track of `v` after `current`. -/
def stableLatestBlockers (v current : Version) (others : VersionSet) : List Version :=
  ((others.toList.filter (current < ·)).takeWhile (·.variant == v.variant)).filter
    (!·.hasPrerelease)

/-- Decompose the cascade of a version into its levels. -/
def decompose (v : Version) (others : VersionSet) : CascadeDecomposition :=
  let targets := (decomposeTargets v).targets
  let latestEligible := (decomposeTargets v).latestEligible
  if v.hasPrerelease then
    ⟨targets.map (⟨·, prereleaseBlockers v others⟩), latestEligible, []⟩
  else
    ⟨stableLevels others v targets, latestEligible,
      stableLatestBlockers v (targets.getLastD v) others⟩

/-! ### Resolution against a registry -/

section Resolve

variable (fetch : String → Option Manifest) (platform : Platform)

/-- Whether a blocker carries the platform; `none` when a blocker cannot be read. -/
def hasBlockingPlatform : List Version → Option Bool
  | [] => some false
  | blocker :: blockers =>
    match fetch blocker.toTag with
    | none => none
    | some manifest =>
      if hasPlatform manifest platform then some true else hasBlockingPlatform blockers

/-- Walk the levels up to the first one that is blocked or cannot be verified; the flag tells
whether the walk came through. -/
def resolveLevels : List CascadeLevel → List AliasTag × Bool
  | [] => ([], true)
  | level :: levels =>
    match hasBlockingPlatform fetch platform level.blockers with
    | some false => (.version level.target :: (resolveLevels levels).1, (resolveLevels levels).2)
    | _ => ([], false)

/-- The rolling tags a push of `v` moves, and whether the track root is among them. -/
def resolveCascade (v : Version) (others : VersionSet) : List AliasTag × Bool :=
  let d := decompose v others
  let walked := resolveLevels fetch platform d.levels
  if walked.2 && d.latestEligible &&
      hasBlockingPlatform fetch platform d.latestBlockers == some false then
    (walked.1 ++ [.root v.variant], true)
  else (walked.1, false)

/-- The tags a push of `v` moves. -/
def resolveCascadeTags (v : Version) (others : VersionSet) : List String × Bool :=
  ((resolveCascade fetch platform v others).1.map AliasTag.toTag,
    (resolveCascade fetch platform v others).2)

end Resolve

/-! ### Facts about chains -/

theorem decomposeTargets_stable (hv : v.hasPrerelease = false) :
    decomposeTargets v = ⟨v.ancestors, true⟩ := by
  simp [decomposeTargets, hv]

theorem decomposeTargets_prerelease (hv : v.hasPrerelease = true) :
    decomposeTargets v = ⟨if v.hasBuild then v.parent.toList else [], false⟩ := by
  cases h : v.hasBuild <;> simp [decomposeTargets, hv, h]

@[simp] theorem version_mem_aliasChain {v t : Version} :
    .version t ∈ aliasChain v ↔ t ∈ (decomposeTargets v).targets := by
  cases h : (decomposeTargets v).latestEligible <;> simp [aliasChain, h]

@[simp] theorem root_mem_aliasChain {v : Version} {variant : Option String} :
    .root variant ∈ aliasChain v ↔ v.hasPrerelease = false ∧ v.variant = variant := by
  cases h : v.hasPrerelease
  · simp [aliasChain, decomposeTargets_stable h, eq_comm]
  · simp [aliasChain, decomposeTargets_prerelease h]

theorem parent_prerelease_build (hv : v.hasPrerelease = true)
    (hb : v.hasBuild = true) (h : v.parent = some p) : p.hasPrerelease = true := by
  obtain ⟨var, maj, rest⟩ := v
  rcases rest with _ | ⟨m, _ | ⟨q, _ | b, _ | pre⟩⟩ <;> simp [parent] at h <;> subst h <;>
    simp_all [hasPrerelease, prerelease, hasBuild, Version.build]

theorem version_mem_aliasChain_stable (hv : v.hasPrerelease = false) :
    .version t ∈ aliasChain v ↔ t ∈ v.ancestors := by
  rw [version_mem_aliasChain, decomposeTargets_stable hv]

theorem mem_ancestors_of_mem_aliasChain (h : .version t ∈ aliasChain v) :
    t ∈ v.ancestors := by
  rw [version_mem_aliasChain] at h
  cases hpre : v.hasPrerelease
  · rwa [decomposeTargets_stable hpre] at h
  · rw [decomposeTargets_prerelease hpre] at h
    split_ifs at h with hb
    · rw [ancestors_of_parent_eq_some (mem_toList.1 h)]
      exact mem_cons_self
    · simp at h

theorem hasPrerelease_of_mem_aliasChain (h : .version t ∈ aliasChain v) :
    t.hasPrerelease = v.hasPrerelease := by
  rw [version_mem_aliasChain] at h
  cases hpre : v.hasPrerelease
  · rw [decomposeTargets_stable hpre] at h
    exact hasPrerelease_of_mem_ancestors hpre h
  · rw [decomposeTargets_prerelease hpre] at h
    split_ifs at h with hb
    · exact parent_prerelease_build hpre hb (mem_toList.1 h)
    · simp at h

theorem aliasChain_trans (ht : .version t ∈ aliasChain v)
    (ha : a ∈ aliasChain t) : a ∈ aliasChain v := by
  have hpre := hasPrerelease_of_mem_aliasChain ht
  have hanc := mem_ancestors_of_mem_aliasChain ht
  cases hv : v.hasPrerelease
  · rw [hv] at hpre
    rcases a with variant | w
    · rw [root_mem_aliasChain] at ha ⊢
      exact ⟨hv, (variant_of_mem_ancestors hanc).symm.trans ha.2⟩
    · rw [version_mem_aliasChain_stable hpre] at ha
      rw [version_mem_aliasChain_stable hv]
      exact mem_ancestors_trans hanc ha
  · rw [hv] at hpre
    have hb := hasBuild_of_mem_ancestors hanc
    simp [aliasChain, decomposeTargets_prerelease hpre, hb] at ha

theorem version_mem_aliasChain_of_between (hv : v.hasPrerelease = false)
    (ht : .version t ∈ aliasChain v) (hvw : v ≤ w) (hwt : w < t) (hw : w.hasPrerelease = false) :
    .version t ∈ aliasChain w := by
  rw [version_mem_aliasChain_stable hv] at ht
  rw [version_mem_aliasChain_stable hw]
  exact (mem_ancestors_of_between ht hvw hwt.le).resolve_left hwt.ne

/-! ### What a push moves -/

section Resolved

variable {fetch : String → Option Manifest} {platform : Platform} {others : VersionSet}

/-- The version can be read and does not carry the platform. -/
def Clear (fetch : String → Option Manifest) (platform : Platform) (w : Version) : Prop :=
  ∃ manifest, fetch w.toTag = some manifest ∧ hasPlatform manifest platform = false

theorem hasBlockingPlatform_eq_some_false {blockers : List Version} :
    hasBlockingPlatform fetch platform blockers = some false ↔
      ∀ w ∈ blockers, Clear fetch platform w := by
  induction blockers with
  | nil => simp [hasBlockingPlatform]
  | cons w blockers ih =>
    rw [forall_mem_cons, ← ih, hasBlockingPlatform, Clear]
    cases fetch w.toTag with
    | none => simp
    | some manifest => cases h : hasPlatform manifest platform <;> simp [h]

variable {levels : List CascadeLevel} {level : CascadeLevel}

theorem resolveLevels_cons_of_clear (h : ∀ w ∈ level.blockers, Clear fetch platform w) :
    resolveLevels fetch platform (level :: levels) =
      (.version level.target :: (resolveLevels fetch platform levels).1,
        (resolveLevels fetch platform levels).2) := by
  rw [resolveLevels, hasBlockingPlatform_eq_some_false.2 h]

theorem resolveLevels_cons_of_not_clear (h : ¬ ∀ w ∈ level.blockers, Clear fetch platform w) :
    resolveLevels fetch platform (level :: levels) = ([], false) := by
  rw [← hasBlockingPlatform_eq_some_false] at h
  rw [resolveLevels]
  split
  · contradiction
  · rfl

/-- The listed stable versions strictly between `current` and `t`, the chain itself left out. -/
def Between (others : VersionSet) (current t : Version) (chain : List Version) (w : Version) :
    Prop :=
  w ∈ others ∧ current < w ∧ w < t ∧ w.hasPrerelease = false ∧ w ∉ chain

theorem mem_stable_blockers :
    w ∈ (others.toList.filter fun w => current < w ∧ w < t).filter (!·.hasPrerelease) ↔
      w ∈ others ∧ current < w ∧ w < t ∧ w.hasPrerelease = false := by
  simp only [mem_filter, Std.ExtTreeSet.mem_toList, decide_eq_true_eq, Bool.not_eq_true',
    and_assoc]

theorem between_cons_iff {t₀ : Version} {ts : List Version}
    (hs : (current :: t₀ :: ts).Pairwise (· < ·)) (ht : t ∈ t₀ :: ts) {P : Version → Prop} :
    (∀ w, Between others current t (t₀ :: ts) w → P w) ↔
      (∀ w ∈ (others.toList.filter fun w => current < w ∧ w < t₀).filter (!·.hasPrerelease), P w) ∧
      ∀ w, Between others t₀ t ts w → P w := by
  obtain ⟨hcur, hs⟩ := pairwise_cons.1 hs
  have hts := (pairwise_cons.1 hs).1
  have h₀ : current < t₀ := hcur t₀ mem_cons_self
  have hle : t₀ ≤ t := by
    rcases mem_cons.1 ht with rfl | ht
    · exact le_rfl
    · exact (hts t ht).le
  simp only [mem_stable_blockers]
  constructor
  · intro h
    refine ⟨fun w ⟨hmem, hlt, hlt₀, hpre⟩ => h w ⟨hmem, hlt, hlt₀.trans_le hle, hpre, ?_⟩,
      fun w ⟨hmem, hlt, hlt', hpre, hnot⟩ => h w ⟨hmem, h₀.trans hlt, hlt', hpre, ?_⟩⟩
    · rw [mem_cons, not_or]
      exact ⟨hlt₀.ne, fun hw => (hlt₀.trans (hts w hw)).false⟩
    · rw [mem_cons, not_or]
      exact ⟨hlt.ne', hnot⟩
  · rintro ⟨hlow, hhigh⟩ w ⟨hmem, hlt, hlt', hpre, hnot⟩
    rw [mem_cons, not_or] at hnot
    rcases lt_or_gt_of_ne hnot.1 with hw | hw
    · exact hlow w ⟨hmem, hlt, hw, hpre⟩
    · exact hhigh w ⟨hmem, hw, hlt', hpre, hnot.2⟩

theorem mem_resolveLevels_stable (hs : (current :: targets).Pairwise (· < ·)) (ht : t ∈ targets) :
    .version t ∈ (resolveLevels fetch platform (stableLevels others current targets)).1 ↔
      ∀ w, Between others current t targets w → Clear fetch platform w := by
  induction targets generalizing current with
  | nil => simp at ht
  | cons t₀ ts ih =>
    rw [stableLevels, between_cons_iff hs ht]
    by_cases hclear : ∀ w ∈ (others.toList.filter fun w => current < w ∧ w < t₀).filter
        (!·.hasPrerelease), Clear fetch platform w
    · rw [resolveLevels_cons_of_clear hclear, mem_cons, AliasTag.version.injEq]
      rcases mem_cons.1 ht with rfl | ht
      · refine iff_of_true (.inl rfl) ⟨hclear, fun w ⟨_, hlt, hlt', _⟩ => ?_⟩
        exact absurd hlt' hlt.not_gt
      · have hne : t ≠ t₀ := ((pairwise_cons.1 hs.of_cons).1 t ht).ne'
        simp only [hne, false_or, ih hs.of_cons ht]
        exact ⟨fun h => ⟨hclear, h⟩, fun h => h.2⟩
    · rw [resolveLevels_cons_of_not_clear hclear]
      exact iff_of_false (by simp) fun h => hclear h.1

theorem resolveLevels_stable_complete (hs : (current :: targets).Pairwise (· < ·)) :
    (resolveLevels fetch platform (stableLevels others current targets)).2 = true ↔
      ∀ w, Between others current (targets.getLastD current) targets w →
        Clear fetch platform w := by
  induction targets generalizing current with
  | nil =>
    refine iff_of_true rfl fun w ⟨_, hlt, hlt', _, _⟩ => ?_
    exact absurd hlt' hlt.not_gt
  | cons t₀ ts ih =>
    rw [stableLevels, getLastD_cons, between_cons_iff hs getLastD_mem_cons, ← ih hs.of_cons]
    by_cases hclear : ∀ w ∈ (others.toList.filter fun w => current < w ∧ w < t₀).filter
        (!·.hasPrerelease), Clear fetch platform w
    · rw [resolveLevels_cons_of_clear hclear]
      exact ⟨fun h => ⟨hclear, h⟩, fun h => h.2⟩
    · rw [resolveLevels_cons_of_not_clear hclear]
      exact iff_of_false (by simp) fun h => hclear h.1

theorem mem_stableLatestBlockers (h : current.variant = v.variant) :
    w ∈ stableLatestBlockers v current others ↔
      w ∈ others ∧ current < w ∧ w.variant = v.variant ∧ w.hasPrerelease = false := by
  have hsorted := (pairwise_lt_toList others).filter (fun w => decide (current < w))
  have hmem : ∀ x ∈ others.toList.filter (current < ·), ∀ y ∈ others.toList.filter (current < ·),
      x < y → (y.variant == v.variant) = true → (x.variant == v.variant) = true := by
    intro x hx y _ hxy hy
    have hcur : current < x := by simpa using (mem_filter.1 hx).2
    rw [beq_iff_eq] at hy ⊢
    exact (eq_of_between hcur.le hxy.le (h.trans hy.symm)).1.trans hy
  rw [stableLatestBlockers, mem_filter, mem_takeWhile_of_sorted hsorted hmem, mem_filter]
  simp [Std.ExtTreeSet.mem_toList, decide_eq_true_eq, beq_iff_eq, and_assoc]

theorem mem_prereleaseBlockers :
    w ∈ prereleaseBlockers v others ↔ w ∈ others ∧ v < w ∧ w.variant = v.variant ∧
      w.major = v.major ∧ w.minor = v.minor ∧ w.patch = v.patch ∧ w.prerelease = v.prerelease ∧
      w.hasBuild = true := by
  have hsorted := (pairwise_lt_toList others).filter (fun w => decide (v < w))
  rw [prereleaseBlockers, mem_takeWhile_of_sorted hsorted, mem_filter]
  · simp [Std.ExtTreeSet.mem_toList, decide_eq_true_eq, beq_iff_eq, Bool.and_eq_true, and_assoc]
  · intro x hx y _ hxy hy
    have hv : v < x := by simpa using (mem_filter.1 hx).2
    simp only [beq_iff_eq, Bool.and_eq_true, and_assoc] at hy ⊢
    obtain ⟨hvar, hmaj, hmin, hpat, hpre, hb⟩ := hy
    obtain ⟨hvar', h⟩ := eq_of_between hv.le hxy.le hvar.symm
    obtain ⟨hmaj', h⟩ := h hmaj.symm
    obtain ⟨hmin', h⟩ := h hmin.symm
    obtain ⟨hpat', h⟩ := h hpat.symm
    obtain ⟨hpre', hb'⟩ := h hpre.symm
    refine ⟨hvar'.trans hvar, hmaj'.trans hmaj, hmin'.trans hmin, hpat'.trans hpat,
      hpre'.trans hpre, ?_⟩
    -- a build-less version would sort after `y`, which has a build
    cases hxb : x.build with
    | some b => simp [hasBuild, hxb]
    | none =>
      obtain ⟨b, hyb⟩ := isSome_iff_exists.1 hb
      simp [hxb, hyb] at hb'

theorem root_not_mem_resolveLevels :
    .root variant ∉ (resolveLevels fetch platform levels).1 := by
  induction levels with
  | nil => simp [resolveLevels]
  | cons level levels ih =>
    rw [resolveLevels]
    split
    · simpa using ih
    · simp

theorem target_of_mem_resolveLevels (h : .version t ∈ (resolveLevels fetch platform levels).1) :
    t ∈ levels.map CascadeLevel.target := by
  induction levels with
  | nil => simp [resolveLevels] at h
  | cons level levels ih =>
    rw [resolveLevels] at h
    split at h
    · rcases mem_cons.1 h with heq | h
      · simp [AliasTag.version.inj heq]
      · exact mem_cons_of_mem _ (ih h)
    · simp at h

theorem map_target_stableLevels (current : Version) (targets : List Version) :
    (stableLevels others current targets).map CascadeLevel.target = targets := by
  induction targets generalizing current with
  | nil => rfl
  | cons t ts ih => simp [stableLevels, ih]

theorem map_target_decompose (others : VersionSet) (v : Version) :
    (decompose v others).levels.map CascadeLevel.target = (decomposeTargets v).targets := by
  cases h : v.hasPrerelease
  · simp [decompose, h, map_target_stableLevels]
  · simp [decompose, h, Function.comp_def]

theorem version_mem_resolveCascade :
    .version t ∈ (resolveCascade fetch platform v others).1 ↔
      .version t ∈ (resolveLevels fetch platform (decompose v others).levels).1 := by
  rw [resolveCascade]
  split_ifs <;> simp

theorem root_mem_resolveCascade :
    .root variant ∈ (resolveCascade fetch platform v others).1 ↔
      variant = v.variant ∧ (decompose v others).latestEligible = true ∧
        (resolveLevels fetch platform (decompose v others).levels).2 = true ∧
        ∀ w ∈ (decompose v others).latestBlockers, Clear fetch platform w := by
  rw [← hasBlockingPlatform_eq_some_false, resolveCascade]
  split_ifs with h
  · simp only [Bool.and_eq_true, beq_iff_eq] at h
    simp [root_not_mem_resolveLevels, h.1.1, h.1.2, h.2]
  · simp only [Bool.and_eq_true, beq_iff_eq, not_and] at h
    simp only [root_not_mem_resolveLevels, false_iff, not_and]
    exact fun _ helig hwalk => h ⟨hwalk, helig⟩

theorem mem_aliasChain_of_mem_resolveCascade
    (h : a ∈ (resolveCascade fetch platform v others).1) : a ∈ aliasChain v := by
  rcases a with variant | t
  · obtain ⟨rfl, helig, -⟩ := root_mem_resolveCascade.1 h
    have helig' : (decomposeTargets v).latestEligible = true := by
      cases hpre : v.hasPrerelease <;> simpa [decompose, hpre] using helig
    simp [aliasChain, helig']
  · rw [version_mem_aliasChain, ← map_target_decompose others]
    exact target_of_mem_resolveLevels (version_mem_resolveCascade.1 h)

theorem mem_resolveCascade_stable (hv : v.hasPrerelease = false)
    (ht : .version t ∈ aliasChain v) :
    .version t ∈ (resolveCascade fetch platform v others).1 ↔
      ∀ w, Between others v t v.ancestors w → Clear fetch platform w := by
  rw [version_mem_aliasChain_stable hv] at ht
  simp only [version_mem_resolveCascade, decompose, hv, decomposeTargets_stable hv]
  exact mem_resolveLevels_stable v.ancestors_sorted ht

theorem root_mem_resolveCascade_stable (hv : v.hasPrerelease = false) :
    .root v.variant ∈ (resolveCascade fetch platform v others).1 ↔
      ∀ w ∈ others, v < w → w.variant = v.variant → w.hasPrerelease = false →
        w ∉ v.ancestors → Clear fetch platform w := by
  have hmem : v.ancestors.getLastD v ∈ v :: v.ancestors := getLastD_mem_cons
  have hvar : (v.ancestors.getLastD v).variant = v.variant := by
    rcases mem_cons.1 hmem with heq | h
    · rw [heq]
    · exact variant_of_mem_ancestors h
  have hle : v ≤ v.ancestors.getLastD v := by
    rcases mem_cons.1 hmem with heq | h
    · exact heq.ge
    · exact (lt_of_mem_ancestors h).le
  simp only [root_mem_resolveCascade, decompose, hv, decomposeTargets_stable hv,
    Bool.false_eq_true, if_false, resolveLevels_stable_complete v.ancestors_sorted,
    mem_stableLatestBlockers hvar]
  constructor
  · rintro ⟨-, -, hlow, hhigh⟩ w hw hlt hwv hpre hnot
    rcases lt_trichotomy w (v.ancestors.getLastD v) with hlast | heq | hlast
    · exact hlow w ⟨hw, hlt, hlast, hpre, hnot⟩
    · rcases mem_cons.1 hmem with hv' | hmem
      · exact absurd (heq.trans hv') hlt.ne'
      · exact absurd (heq ▸ hmem) hnot
    · exact hhigh w ⟨hw, hlast, hwv, hpre⟩
  · intro h
    refine ⟨trivial, trivial, fun w ⟨hw, hlt, hlast, hpre, hnot⟩ => ?_,
      fun w ⟨hw, hlast, hwv, hpre⟩ => ?_⟩
    · exact h w hw hlt ((eq_of_between hlt.le hlast.le hvar.symm).1.trans hvar) hpre hnot
    · refine h w hw (hle.trans_lt hlast) hwv hpre fun hanc => ?_
      have hsorted := (pairwise_cons.1 v.ancestors_sorted).2
      exact absurd hlast (le_getLastD_of_sorted hsorted hanc v).not_gt

theorem version_mem_aliasChain_prerelease (hv : v.hasPrerelease = true) :
    .version p ∈ aliasChain v ↔ v.hasBuild = true ∧ v.parent = some p := by
  rw [version_mem_aliasChain, decomposeTargets_prerelease hv]
  cases v.hasBuild <;> simp

theorem mem_resolveCascade_prerelease (hv : v.hasPrerelease = true)
    (hp : .version p ∈ aliasChain v) :
    .version p ∈ (resolveCascade fetch platform v others).1 ↔
      ∀ w ∈ prereleaseBlockers v others, Clear fetch platform w := by
  obtain ⟨hb, hp⟩ := (version_mem_aliasChain_prerelease hv).1 hp
  simp only [version_mem_resolveCascade, decompose, hv, decomposeTargets_prerelease hv, hb, hp,
    if_true, toList_some, map_cons, map_nil]
  by_cases hclear : ∀ w ∈ prereleaseBlockers v others, Clear fetch platform w
  · rw [resolveLevels_cons_of_clear hclear]
    simpa using hclear
  · rw [resolveLevels_cons_of_not_clear hclear]
    simpa using hclear

theorem parent_eq_parent_iff (hv : v.hasBuild = true) (hp : v.parent = some p) :
    w.hasBuild = true ∧ w.parent = some p ↔ w.variant = v.variant ∧ w.major = v.major ∧
      w.minor = v.minor ∧ w.patch = v.patch ∧ w.prerelease = v.prerelease ∧
      w.hasBuild = true := by
  obtain ⟨var, maj, rest⟩ := v
  obtain ⟨var', maj', rest'⟩ := w
  rcases rest with _ | ⟨m, _ | ⟨q, _ | b, pre⟩⟩ <;> simp [hasBuild, Version.build] at hv
  obtain rfl : _ = p := by simpa [parent] using hp
  rcases rest' with _ | ⟨m', _ | ⟨q', _ | b', pre'⟩⟩ <;>
    simp [hasBuild, Version.build, parent, minor, patch, prerelease]

/-- **What a push moves.** A push of `v` moves a rolling tag of its chain exactly when no listed
later version with that tag in its chain carries the platform, the rolling versions above `v`
aside. -/
theorem mem_resolveCascade_iff (ha : a ∈ aliasChain v) :
    a ∈ (resolveCascade fetch platform v others).1 ↔
      ∀ w ∈ others, v < w → a ∈ aliasChain w → .version w ∉ aliasChain v →
        Clear fetch platform w := by
  cases hv : v.hasPrerelease with
  | false =>
    rcases a with variant | t
    · obtain ⟨-, rfl⟩ := root_mem_aliasChain.1 ha
      simp only [root_mem_resolveCascade_stable hv, root_mem_aliasChain,
        version_mem_aliasChain_stable hv]
      exact ⟨fun h w hw hlt hchain hnot => h w hw hlt hchain.2 hchain.1 hnot,
        fun h w hw hlt hvar hpre hnot => h w hw hlt ⟨hpre, hvar⟩ hnot⟩
    · have hstable := hasPrerelease_of_mem_aliasChain ha
      rw [mem_resolveCascade_stable hv ha]
      constructor
      · intro h w hw hlt hchain hnot
        rw [version_mem_aliasChain_stable hv] at hnot
        exact h w ⟨hw, hlt, lt_of_mem_ancestors (mem_ancestors_of_mem_aliasChain hchain),
          (hasPrerelease_of_mem_aliasChain hchain).symm.trans (hstable.trans hv), hnot⟩
      · rintro h w ⟨hw, hlt, hwt, hpre, hnot⟩
        refine h w hw hlt (version_mem_aliasChain_of_between hv ha hlt.le hwt hpre) ?_
        rwa [version_mem_aliasChain_stable hv]
  | true =>
    rcases a with variant | p
    · exact absurd (root_mem_aliasChain.1 ha).1 (by simp [hv])
    · obtain ⟨hb, hp⟩ := (version_mem_aliasChain_prerelease hv).1 ha
      have hpre : p.hasPrerelease = true := parent_prerelease_build hv hb hp
      rw [mem_resolveCascade_prerelease hv ha]
      constructor
      · intro h w hw hlt hchain _
        have hw' : w.hasPrerelease = true :=
          (hasPrerelease_of_mem_aliasChain hchain).symm.trans hpre
        exact h w (mem_prereleaseBlockers.2 ⟨hw, hlt, (parent_eq_parent_iff hb hp).1
          ((version_mem_aliasChain_prerelease hw').1 hchain)⟩)
      · intro h w hw
        obtain ⟨hmem, hlt, hsame⟩ := mem_prereleaseBlockers.1 hw
        have hw' : w.hasPrerelease = true := by
          rw [hasPrerelease, hsame.2.2.2.2.1]
          exact hv
        refine h w hmem hlt ?_ fun hanc => ?_
        · rw [version_mem_aliasChain_prerelease hw']
          exact (parent_eq_parent_iff hb hp).2 hsame
        · have := hasBuild_of_mem_ancestors (mem_ancestors_of_mem_aliasChain hanc)
          simp [hsame.2.2.2.2.2] at this

end Resolved

/-! ### Chains and publications -/

theorem wellFormed_of_mem_ancestors (hv : v.WellFormed) (h : t ∈ v.ancestors) :
    t.WellFormed := by
  refine forall_mem_ancestors (I := WellFormed) (P := WellFormed) ?_ hv h
  rintro ⟨var, maj, rest⟩ p hp ⟨h₁, h₂, h₃⟩
  rcases rest with _ | ⟨m, _ | ⟨q, _ | b, _ | pre⟩⟩ <;> simp [parent] at hp <;> subst hp <;>
    refine and_self_iff.2 ⟨h₁, ?_, ?_⟩ <;> simp_all [prerelease, Version.build]

theorem wellFormed_of_mem_aliasChain (hv : v.WellFormed)
    (h : a ∈ aliasChain v) : a.WellFormed := by
  rcases a with (_ | variant) | t
  · trivial
  · exact hv.variant variant (root_mem_aliasChain.1 h).2
  · exact wellFormed_of_mem_ancestors hv (mem_ancestors_of_mem_aliasChain h)

/-- A rolling version between `v` and a common rolling tag, and not above `v`, has only later
versions below it. -/
theorem lt_of_version_mem_aliasChain {u : Version} (hv : a ∈ aliasChain v)
    (hw : a ∈ aliasChain w) (hlt : v < w) (hnot : .version w ∉ aliasChain v)
    (hu : .version w ∈ aliasChain u) : v < u := by
  by_contra hle
  have hanc := mem_ancestors_of_mem_aliasChain hu
  have hbetween := mem_ancestors_of_between hanc (not_lt.1 hle) hlt.le
  cases hpre : v.hasPrerelease with
  | false =>
    rw [version_mem_aliasChain_stable hpre] at hnot
    exact hbetween.elim hlt.ne hnot
  | true =>
    -- only builds cascade below a pre-release, and a rolling version is no build
    rcases a with variant | p
    · exact absurd (root_mem_aliasChain.1 hv).1 (by simp [hpre])
    · have hwpre : w.hasPrerelease = true := by
        rw [← hasPrerelease_of_mem_aliasChain hw, hasPrerelease_of_mem_aliasChain hv, hpre]
      have hbuild := ((version_mem_aliasChain_prerelease hwpre).1 hw).1
      rw [hasBuild_of_mem_ancestors hanc] at hbuild
      exact Bool.false_ne_true hbuild

end Ocx
