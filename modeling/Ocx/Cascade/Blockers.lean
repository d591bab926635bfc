import Ocx.Cascade.Decompose

/-!
# The blockers of a cascade level

The order of versions puts a rolling version right behind the versions below it, so that a range
scan finds a subtree. The levels of a cascade share out the later versions of the chain's subtrees:
a version that already lies below the preceding level's target blocks that level or an earlier one,
and is not listed again. A pre-release is blocked by later builds of the same pre-release, which
are pre-releases themselves.
-/

namespace Ocx

open List

variable {v below t w : Version} {level : CascadeLevel}

open Version

/-- Consecutive members of a chain are child and parent. -/
theorem parent_of_consecutive {i : ℕ}
    (hbelow : (v :: v.ancestors)[i]? = some below) (ht : v.ancestors[i]? = some t) :
    below.parent = some t := by
  induction i generalizing v with
  | zero =>
    obtain rfl : v = below := by simpa using hbelow
    cases hp : v.parent with
    | none => simp [ancestors_of_parent_eq_none hp] at ht
    | some p =>
      rw [ancestors_of_parent_eq_some hp] at ht
      simpa using ht
  | succ i ih =>
    cases hp : v.parent with
    | none => simp [ancestors_of_parent_eq_none hp] at ht
    | some p =>
      rw [ancestors_of_parent_eq_some hp, getElem?_cons_succ] at hbelow ht
      exact ih hbelow ht

section Levels

variable {others : VersionSet}

theorem mem_stableLevels_blockers {current : Version} {targets : List Version} {i : ℕ}
    (hlevel : (stableLevels others current targets)[i]? = some level)
    (hbelow : (current :: targets)[i]? = some below) :
    w ∈ level.blockers ↔
      w ∈ others ∧ below < w ∧ w < level.target ∧ w.hasPrerelease = false := by
  induction targets generalizing current i with
  | nil => simp [stableLevels] at hlevel
  | cons t ts ih =>
    rw [stableLevels] at hlevel
    cases i with
    | zero =>
      obtain rfl := Option.some.inj hlevel
      obtain rfl := Option.some.inj hbelow
      exact mem_stable_blockers
    | succ i => exact ih (by simpa using hlevel) (by simpa using hbelow)

/-- Above a chain member and below its parent lies what is below the parent, later than where the
chain starts, and neither the member nor below it. -/
theorem between_parent_iff (hbelow : below ∈ v :: v.ancestors)
    (hparent : below.parent = some t) :
    below < w ∧ w < t ↔ t ∈ w.ancestors ∧ v < w ∧ w ≠ below ∧ below ∉ w.ancestors := by
  have hle : v ≤ below := by
    rcases mem_cons.1 hbelow with rfl | h
    exacts [le_rfl, (lt_of_mem_ancestors h).le]
  constructor
  · rintro ⟨hlow, hhigh⟩
    refine ⟨(mem_ancestors_of_between_parent hparent hlow.le hhigh.le).resolve_left hhigh.ne,
      hle.trans_lt hlow, hlow.ne', fun hmem => ?_⟩
    exact (lt_of_mem_ancestors hmem).asymm hlow
  · rintro ⟨ht, hv, hne, hnot⟩
    refine ⟨lt_of_not_ge fun hge => ?_, lt_of_mem_ancestors ht⟩
    rcases mem_cons.1 hbelow with rfl | hmem
    · exact hv.not_ge hge
    · exact (mem_ancestors_of_between hmem hv.le hge).elim hne hnot

theorem mem_blockers_stable (hv : v.hasPrerelease = false) {i : ℕ}
    (hlevel : (decompose v others).levels[i]? = some level)
    (hbelow : (v :: (decomposeTargets v).targets)[i]? = some below) :
    w ∈ level.blockers ↔ w ∈ others ∧ w.hasPrerelease = false ∧ level.target ∈ w.ancestors ∧
      v < w ∧ w ≠ below ∧ below ∉ w.ancestors := by
  have htarget : (decomposeTargets v).targets[i]? = some level.target := by
    rw [← map_target_decompose others v, getElem?_map, hlevel, Option.map_some]
  have hlevel' : (stableLevels others v v.ancestors)[i]? = some level := by
    simpa [decompose, hv, decomposeTargets_stable hv] using hlevel
  rw [decomposeTargets_stable hv] at hbelow htarget
  rw [mem_stableLevels_blockers hlevel' hbelow,
    ← between_parent_iff (mem_of_getElem? hbelow) (parent_of_consecutive hbelow htarget)]
  tauto

theorem parent_eq_of_prerelease_mem_ancestors (ht : t ∈ w.ancestors)
    (hpre : t.hasPrerelease = true) : w.hasBuild = true ∧ w.parent = some t := by
  obtain ⟨var, maj, rest⟩ := w
  rcases rest with _ | ⟨m, _ | ⟨p, _ | b, _ | pre⟩⟩ <;>
    simp [ancestors, parent, depth, successors] at ht <;>
    rcases ht with rfl | rfl | rfl | rfl <;>
    simp_all [hasPrerelease, prerelease, hasBuild, Version.build, parent]

theorem mem_blockers_prerelease (hv : v.hasPrerelease = true)
    (hlevel : level ∈ (decompose v others).levels) :
    w ∈ level.blockers ↔ w ∈ others ∧ w.hasPrerelease = true ∧ level.target ∈ w.ancestors ∧
      v < w := by
  simp only [decompose, hv, if_true, mem_map] at hlevel
  obtain ⟨t, ht, rfl⟩ := hlevel
  rw [← version_mem_aliasChain] at ht
  have htpre : t.hasPrerelease = true := (hasPrerelease_of_mem_aliasChain ht).trans hv
  obtain ⟨hbuild, hparent⟩ := (version_mem_aliasChain_prerelease hv).1 ht
  have hsubtree : w.hasPrerelease = true ∧ t ∈ w.ancestors ↔
      w.hasBuild = true ∧ w.parent = some t := by
    constructor
    · exact fun h => parent_eq_of_prerelease_mem_ancestors h.2 htpre
    · rintro ⟨hb, hp⟩
      have hmem : t ∈ w.ancestors := by
        rw [ancestors_of_parent_eq_some hp]
        exact mem_cons_self
      refine ⟨by_contra fun hstable => ?_, hmem⟩
      rw [hasPrerelease_of_mem_ancestors (by simpa using hstable) hmem] at htpre
      cases htpre
  rw [mem_prereleaseBlockers, ← and_assoc (a := w.hasPrerelease = true), hsubtree,
    parent_eq_parent_iff hbuild hparent]
  tauto

theorem length_levels_prerelease (others : VersionSet)
    (hv : v.hasPrerelease = true) :
    (decompose v others).levels.length ≤ 1 := by
  rw [← length_map (f := CascadeLevel.target), map_target_decompose,
    decomposeTargets_prerelease hv]
  cases v.parent <;> cases v.hasBuild <;> simp

end Levels

/-- **Range scans.** Versions are strictly and totally ordered, a parent sorts after its child, and
the versions below a rolling version form an interval that the rolling version closes. A level of
the cascade of `v` is blocked by exactly the listed versions that are pre-releases if and only if
`v` is one, lie below the level's target and after `v`, and neither are nor lie below the member of
the chain before the target. -/
theorem mem_blockers_iff :
    (∀ v w : Version, v.cmp w = .eq ↔ v = w) ∧
    (∀ v w : Version, (v.cmp w).swap = w.cmp v) ∧
    (∀ u v w : Version, u.cmp v = .lt → v.cmp w = .lt → u.cmp w = .lt) ∧
    (∀ v p : Version, v.parent = some p → v.cmp p = .lt) ∧
    (∀ d p x : Version, p ∈ d.ancestors → d.cmp x ≠ .gt → x.cmp p ≠ .gt →
      x = p ∨ p ∈ x.ancestors) ∧
    ∀ (v : Version) (others : VersionSet) (i : ℕ) (level : CascadeLevel) (below : Version),
      (decompose v others).levels[i]? = some level →
      (v :: (decomposeTargets v).targets)[i]? = some below →
      ∀ w, w ∈ level.blockers ↔ w ∈ others ∧ w.hasPrerelease = v.hasPrerelease ∧
        level.target ∈ w.ancestors ∧ v.cmp w = .lt ∧ w ≠ below ∧ below ∉ w.ancestors := by
  simp only [cmp_eq_compare, compare_eq_iff_eq, compare_lt_iff_lt, compare_le_iff_le]
  refine ⟨fun v w => trivial, fun v w => Std.OrientedCmp.eq_swap.symm, fun u v w => lt_trans,
    fun v p => lt_of_parent_eq_some, fun d p x => mem_ancestors_of_between,
    fun v others i level below hlevel hbelow w => ?_⟩
  cases hv : v.hasPrerelease with
  | false => exact mem_blockers_stable hv hlevel hbelow
  | true =>
    -- the only level starts at the version itself
    obtain ⟨hlt, -⟩ := List.getElem?_eq_some_iff.1 hlevel
    have hlen := length_levels_prerelease others hv
    obtain rfl : i = 0 := by omega
    obtain rfl : v = below := by simpa using hbelow
    rw [mem_blockers_prerelease hv (mem_of_getElem? hlevel)]
    constructor
    · rintro ⟨hmem, hpre, htarget, hlt⟩
      exact ⟨hmem, hpre, htarget, hlt, hlt.ne', fun h => (lt_of_mem_ancestors h).asymm hlt⟩
    · rintro ⟨hmem, hpre, htarget, hlt, -⟩
      exact ⟨hmem, hpre, htarget, hlt⟩

/-- The level `1` of a push of `1.2.3` is blocked by `1.3.0`. -/
theorem mem_blockers_next_minor :
    ∃ level, (decompose (newPatch 1 2 3)
      (.ofList [newPatch 1 2 4, newPatch 1 3 0])).levels[1]? = some level ∧
        newPatch 1 3 0 ∈ level.blockers :=
  ⟨⟨newMajor 1, [newPatch 1 3 0]⟩, by decide +kernel,
    (mem_blockers_iff.2.2.2.2.2 (newPatch 1 2 3) (.ofList [newPatch 1 2 4, newPatch 1 3 0])
      1 _ (newMinor 1 2) (by decide +kernel) (by decide +kernel) _).2 (by decide +kernel)⟩

/-- A push of `1.2.3` next to `1.2.4`: the level `1` lists no blocker, although `1.2.4` is a later
version below `1`. A push of `1.2.3-rc1_b1` next to `1.2.3-rc1_b2` is blocked by a pre-release. -/
theorem later_version_not_listed_again :
    (decompose (newPatch 1 2 3) (.ofList [newPatch 1 2 4])).levels =
      [⟨newMinor 1 2, [newPatch 1 2 4]⟩, ⟨newMajor 1, []⟩] ∧
    newMajor 1 ∈ (newPatch 1 2 4).ancestors ∧ (newPatch 1 2 3).cmp (newPatch 1 2 4) = .lt ∧
    (newPatch 1 2 4).hasPrerelease = false ∧
    (decompose (newPrereleaseWithBuild 1 2 3 "rc1" "b1")
      (.ofList [newPrereleaseWithBuild 1 2 3 "rc1" "b2"])).levels =
        [⟨newPrerelease 1 2 3 "rc1", [newPrereleaseWithBuild 1 2 3 "rc1" "b2"]⟩] ∧
    (newPrereleaseWithBuild 1 2 3 "rc1" "b2").hasPrerelease = true := by
  decide +kernel

end Ocx
