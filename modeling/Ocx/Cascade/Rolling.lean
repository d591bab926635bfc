import Ocx.Cascade.Publish

/-!
# Rolling tags of one platform

When every push is for one platform, a rolling tag carries what the greatest release below it
carries. A release is a full version without a pre-release and without a build. Releases are pushed
themselves, or stand as the rolling version above their builds, so both kinds of push have to keep
a rolling tag and the releases below it together.
-/

namespace Ocx

open Version List

/-! ### Releases -/

variable {v s w : Version} {a : AliasTag}

namespace Version

/-- A full version, neither a pre-release nor a build. -/
def isRelease (v : Version) : Bool := v.hasPatch && !v.hasPrerelease && !v.hasBuild

/-- The release a full version belongs to. -/
def release (v : Version) : Version :=
  { v with rest := v.rest.map fun r => (r.1, r.2.map fun q => (q.1, none, none)) }

theorem isRelease_iff :
    v.isRelease = true ↔ v.hasPatch = true ∧ v.hasPrerelease = false ∧ v.hasBuild = false := by
  simp [isRelease, and_assoc]

theorem isRelease_release (hv : v.hasPatch = true) : v.release.isRelease = true := by
  obtain ⟨var, maj, rest⟩ := v
  rcases rest with _ | ⟨m, _ | ⟨q, b, pre⟩⟩ <;>
    simp_all [isRelease, hasPatch, patch, release, hasPrerelease, prerelease, hasBuild,
      Version.build]

theorem release_of_isRelease (hv : v.isRelease = true) : v.release = v := by
  obtain ⟨var, maj, rest⟩ := v
  rcases rest with _ | ⟨m, _ | ⟨q, _ | b, _ | pre⟩⟩ <;>
    simp_all [isRelease, hasPatch, patch, release, hasPrerelease, prerelease, hasBuild,
      Version.build]

theorem release_cases (hv : v.hasPatch = true) (hpre : v.hasPrerelease = false) :
    v.release = v ∨ v.parent = some v.release := by
  obtain ⟨var, maj, rest⟩ := v
  rcases rest with _ | ⟨m, _ | ⟨q, _ | b, _ | pre⟩⟩ <;>
    simp_all [hasPatch, patch, release, hasPrerelease, prerelease, parent]

theorem hasPatch_of_mem_ancestors {t : Version} (hs : s.isRelease = true)
    (ht : t ∈ s.ancestors) : t.hasPatch = false := by
  refine forall_mem_ancestors (I := fun w => w.isRelease = true ∨ w.hasPatch = false)
    (P := fun w => w.hasPatch = false) ?_ (.inl hs) ht
  rintro ⟨var, maj, rest⟩ p hp hw
  rcases rest with _ | ⟨m, _ | ⟨q, _ | b, _ | pre⟩⟩ <;> simp [parent] at hp <;> subst hp <;>
    simp_all [isRelease, hasPatch, patch, hasPrerelease, prerelease, hasBuild, Version.build]

theorem le_release (hv : v.hasPatch = true) (hpre : v.hasPrerelease = false) :
    v ≤ v.release := by
  rcases release_cases hv hpre with h | h
  · exact h.ge
  · exact (lt_of_parent_eq_some h).le

theorem release_le (hv : v.hasPatch = true) (hpre : v.hasPrerelease = false)
    (hs : s.isRelease = true) (hle : v ≤ s) : v.release ≤ s := by
  rcases release_cases hv hpre with h | h
  · rwa [h]
  · by_contra hlt
    rcases mem_ancestors_of_between_parent h hle (not_le.1 hlt).le with rfl | hmem
    · exact hlt le_rfl
    · have hfull := (isRelease_iff.1 (isRelease_release hv)).1
      rw [hasPatch_of_mem_ancestors hs hmem] at hfull
      cases hfull

end Version

/-- The rolling tags: a track root, or a version without a patch number. -/
def AliasTag.isRolling : AliasTag → Bool
  | root _ => true
  | version v => !v.hasPatch

/-! ### Chains and releases -/

theorem hasPrerelease_of_isRolling (ha : a.isRolling = true) (hmem : a ∈ aliasChain v) :
    v.hasPrerelease = false := by
  rcases a with variant | t
  · exact (root_mem_aliasChain.1 hmem).1
  · rw [← hasPrerelease_of_mem_aliasChain hmem]
    have ht : t.hasPatch = false := by simpa [AliasTag.isRolling] using ha
    obtain ⟨var, maj, rest⟩ := t
    rcases rest with _ | ⟨m, _ | ⟨q, b, pre⟩⟩ <;>
      simp_all [hasPatch, patch, hasPrerelease, prerelease]

theorem release_mem_aliasChain (hv : v.hasPatch = true) (hpre : v.hasPrerelease = false) :
    v.release = v ∨ .version v.release ∈ aliasChain v := by
  refine (release_cases hv hpre).imp_right fun h => ?_
  rw [version_mem_aliasChain_stable hpre, ancestors_of_parent_eq_some h]
  exact mem_cons_self

theorem eq_release_of_mem_aliasChain (hv : v.hasPatch = true) (hs : s.isRelease = true)
    (h : .version s ∈ aliasChain v) : s = v.release := by
  have hpre : v.hasPrerelease = false := by
    rw [← hasPrerelease_of_mem_aliasChain h]
    exact (isRelease_iff.1 hs).2.1
  rw [version_mem_aliasChain_stable hpre] at h
  have hfull := (isRelease_iff.1 hs).1
  rcases release_cases hv hpre with hrel | hparent
  · have hv' : v.isRelease = true := hrel ▸ isRelease_release hv
    rw [hasPatch_of_mem_ancestors hv' h] at hfull
    cases hfull
  · rw [ancestors_of_parent_eq_some hparent] at h
    rcases mem_cons.1 h with h | h
    · exact h
    · rw [hasPatch_of_mem_ancestors (isRelease_release hv) h] at hfull
      cases hfull

theorem mem_aliasChain_release_iff (hv : v.hasPatch = true) (ha : a.isRolling = true)
    (hpre : v.hasPrerelease = false) : a ∈ aliasChain v.release ↔ a ∈ aliasChain v := by
  rcases release_cases hv hpre with hrel | hparent
  · rw [hrel]
  · have hrelease := isRelease_iff.1 (isRelease_release hv)
    have hvar : v.release.variant = v.variant := rfl
    rcases a with variant | t
    · rw [root_mem_aliasChain, root_mem_aliasChain, hvar, hpre, hrelease.2.1]
    · have ht : t ≠ v.release := by
        rintro rfl
        simp [AliasTag.isRolling, hrelease.1] at ha
      rw [version_mem_aliasChain_stable hpre, version_mem_aliasChain_stable hrelease.2.1,
        ancestors_of_parent_eq_some hparent]
      simp [ht]

/-! ### Registries of one platform -/

/-- Every tag names an index with one entry, the one a push for the platform writes, and the digest
of the entry can be read. -/
def SinglePlatform (platform : Platform) (reg : Registry) : Prop :=
  ∀ (tag : String) (t : ObservedTag), reg[tag]? = some t → ∃ index digest size,
    t.manifest = .imageIndex index ∧
    index.manifests = [platformEntry platform.toNative digest size] ∧
    (Digest.tryFrom digest).isSome = true

namespace SinglePlatform

variable {platform : Platform} {reg : Registry}

theorem clean (h : SinglePlatform platform reg) : reg.Clean := by
  intro tag t ht
  obtain ⟨index, digest, size, hindex, hmanifests, -⟩ := h tag t ht
  exact ⟨index, hindex, by simp [hmanifests, platformEntry], by simp [hmanifests]⟩

theorem slotAt_ne_none (h : SinglePlatform platform reg) (ha : a.toTag ∈ reg) :
    slotAt reg a platform.toNative ≠ none := by
  rw [Std.ExtTreeMap.mem_iff_isSome_getElem?, Option.isSome_iff_exists] at ha
  obtain ⟨t, ht⟩ := ha
  obtain ⟨index, digest, size, hindex, hmanifests, -⟩ := h _ t ht
  obtain ⟨d, n, manifest⟩ := t
  obtain rfl : manifest = .imageIndex index := hindex
  simp [slotAt, entryAt, ht, ImageIndex.entryFor, hmanifests, platformEntry]

theorem mergePlatformIntoIndex (h : SinglePlatform platform reg) (body : ImageIndex → Digest × ℤ)
    (tag : String) {digest : String} (hdigest : (Digest.tryFrom digest).isSome = true) (size : ℤ)
    (annotations : Annotations) :
    SinglePlatform platform
      (Ocx.mergePlatformIntoIndex body reg tag platform digest size annotations) := by
  intro tag' t ht
  simp only [Ocx.mergePlatformIntoIndex, getElem?_insert_eq] at ht
  split_ifs at ht with heq
  · refine ⟨_, digest, size, by rw [← Option.some.inj ht]; rfl, ?_, hdigest⟩
    have hfilter : (existingIndex reg[tag]?).manifests.filter
        (fun e => e.platform != some platform.toNative) = [] := by
      cases hold : reg[tag]? with
      | none => rfl
      | some old =>
        obtain ⟨index, digest', size', hindex, hmanifests, -⟩ := h tag old hold
        obtain ⟨d, n, manifest⟩ := old
        obtain rfl : manifest = .imageIndex index := hindex
        simp [existingIndex, hmanifests, platformEntry]
    rw [mergeIndex, hfilter, nil_append]
  · exact h tag' t ht

theorem pushWithCascade {pub : Publication} (h : SinglePlatform pub.platform reg)
    (body : ImageIndex → Digest × ℤ) (hdigest : (Digest.tryFrom pub.digest).isSome = true) :
    SinglePlatform pub.platform (Ocx.pushWithCascade body reg pub) := by
  rw [Ocx.pushWithCascade, mergeTags]
  exact foldlRecOn _ _ h fun reg hreg tag _ =>
    hreg.mergePlatformIntoIndex body tag hdigest pub.size pub.annotations

end SinglePlatform

/-! ### The invariant -/

/-- The listed releases whose chain contains the node. -/
def releasesBelow (reg : Registry) (a : AliasTag) : Set Version :=
  {s | s ∈ listedVersions reg ∧ s.isRelease = true ∧ a ∈ aliasChain s}

/-- A registry after pushes of full versions for one platform. -/
structure Cascaded (platform : Platform) (reg : Registry) : Prop where
  node : ∀ tag ∈ reg, ∃ a : AliasTag, a.WellFormed ∧ tag = a.toTag
  /-- Every tag carries the platform and nothing else. -/
  single : SinglePlatform platform reg
  above : ∀ w ∈ listedVersions reg, ∀ a ∈ aliasChain w, a.toTag ∈ reg
  /-- A rolling tag in use is above a listed release. -/
  below : ∀ a : AliasTag, a.WellFormed → a.isRolling = true → a.toTag ∈ reg →
    (releasesBelow reg a).Nonempty
  /-- A rolling tag carries what the greatest release below it carries. -/
  agree : ∀ (a : AliasTag) (s : Version), a.WellFormed → a.isRolling = true →
    IsGreatest (releasesBelow reg a) s →
    slotAt reg a platform.toNative = slotAt reg (.version s) platform.toNative

namespace Cascaded

variable {platform : Platform} {reg : Registry}

theorem mem_listedVersions (h : Cascaded platform reg) :
    w ∈ listedVersions reg ↔ w.WellFormed ∧ w.toTag ∈ reg :=
  mem_listedVersions_of_nodes h.node

theorem exists_isGreatest (h : Cascaded platform reg) (ha : a.WellFormed)
    (hrolling : a.isRolling = true) (hmem : a.toTag ∈ reg) :
    ∃ s, IsGreatest (releasesBelow reg a) s := by
  have hfinite : (releasesBelow reg a).Finite :=
    ((listedVersions reg).toList.finite_toSet).subset fun s hs =>
      Std.ExtTreeSet.mem_toList.2 hs.1
  exact Set.exists_max_image _ id hfinite (h.below a ha hrolling hmem)

/-- A blocked rolling tag is blocked by a listed version: every listed version carries the
platform. -/
theorem mem_resolveCascade_iff (h : Cascaded platform reg)
    (ha : a ∈ aliasChain v) :
    a ∈ (resolveCascade reg.fetchManifest platform v (listedVersions reg)).1 ↔
      ∀ w ∈ listedVersions reg, v < w → a ∈ aliasChain w → .version w ∈ aliasChain v := by
  rw [Ocx.mem_resolveCascade_iff ha]
  refine forall_congr' fun w => forall_congr' fun hw => forall_congr' fun _ =>
    forall_congr' fun _ => ?_
  have hclear : ¬ Clear reg.fetchManifest platform w := fun hclear =>
    h.single.slotAt_ne_none (a := .version w) (h.mem_listedVersions.1 hw).2
      (h.single.clean.clear_iff.1 hclear).2
  rw [imp_iff_not hclear, not_not]

end Cascaded

/-! ### One push -/

section Push

variable {reg : Registry} {pub : Publication} (body : ImageIndex → Digest × ℤ)

/-- The nodes a push writes. -/
def Writes (reg : Registry) (pub : Publication) (b : AliasTag) : Prop :=
  b = .version pub.version ∨
    b ∈ (resolveCascade reg.fetchManifest pub.platform pub.version (listedVersions reg)).1

theorem toTag_mem_pushWithCascade {b : AliasTag} (hb : b.WellFormed) :
    b.toTag ∈ pushWithCascade body reg pub ↔ b.toTag ∈ reg ∨ Writes reg pub b := by
  rw [pushWithCascade, mem_mergeTags, toTag_mem_pushed_iff hb, Writes]

theorem Writes.wellFormed {b : AliasTag} (h : Writes reg pub b) : b.WellFormed := by
  rcases h with rfl | h
  · exact pub.wellFormed
  · exact wellFormed_of_mem_aliasChain pub.wellFormed (mem_aliasChain_of_mem_resolveCascade h)

theorem Writes.chain {b : AliasTag} (h : Writes reg pub b) (hw : b = .version w)
    (ha : a ∈ aliasChain w) : a ∈ aliasChain pub.version := by
  subst hw
  rcases h with h | h
  · rwa [← AliasTag.version.inj h]
  · exact aliasChain_trans (mem_aliasChain_of_mem_resolveCascade h) ha

theorem Writes.eq_release (h : Writes reg pub (.version s))
    (hpatch : pub.version.hasPatch = true) (hs : s.isRelease = true) : s = pub.version.release := by
  rcases h with h | h
  · obtain rfl := AliasTag.version.inj h
    exact (release_of_isRelease hs).symm
  · exact eq_release_of_mem_aliasChain hpatch hs (mem_aliasChain_of_mem_resolveCascade h)

namespace Cascaded

variable (h : Cascaded pub.platform reg)
include h

theorem node_push (tag : String) (htag : tag ∈ pushWithCascade body reg pub) :
    ∃ a : AliasTag, a.WellFormed ∧ tag = a.toTag := by
  rw [pushWithCascade, mem_mergeTags, mem_cons, resolveCascadeTags, mem_map] at htag
  rcases htag with htag | rfl | ⟨a, ha, rfl⟩
  · exact h.node tag htag
  · exact ⟨.version pub.version, pub.wellFormed, rfl⟩
  · exact ⟨a, Writes.wellFormed (.inr ha), rfl⟩

theorem mem_listedVersions_push :
    w ∈ listedVersions (pushWithCascade body reg pub) ↔
      w ∈ listedVersions reg ∨ Writes reg pub (.version w) := by
  rw [mem_listedVersions_of_nodes (h.node_push body), h.mem_listedVersions]
  constructor
  · rintro ⟨hw, htag⟩
    exact ((toTag_mem_pushWithCascade body (b := .version w) hw).1 htag).imp_left (⟨hw, ·⟩)
  · rintro (⟨hw, htag⟩ | hwrites)
    · exact ⟨hw, (toTag_mem_pushWithCascade body (b := .version w) hw).2 (.inl htag)⟩
    · have hwf := hwrites.wellFormed
      exact ⟨hwf, (toTag_mem_pushWithCascade body hwf).2 (.inr hwrites)⟩

theorem releasesBelow_push (a : AliasTag) :
    releasesBelow reg a ⊆ releasesBelow (pushWithCascade body reg pub) a :=
  fun _ hs => ⟨(h.mem_listedVersions_push body).2 (.inl hs.1), hs.2⟩

/-- After a push the whole chain of its version is in use: a blocked node is in the chain of its
blocker. -/
theorem toTag_mem_push_of_mem_aliasChain (ha : a ∈ aliasChain pub.version) :
    a.toTag ∈ pushWithCascade body reg pub := by
  rw [toTag_mem_pushWithCascade body (wellFormed_of_mem_aliasChain pub.wellFormed ha)]
  by_cases hmoved :
      a ∈ (resolveCascade reg.fetchManifest pub.platform pub.version (listedVersions reg)).1
  · exact .inr (.inr hmoved)
  · rw [h.mem_resolveCascade_iff ha] at hmoved
    push Not at hmoved
    obtain ⟨w, hw, -, hchain, -⟩ := hmoved
    exact .inl (h.above w hw a hchain)

theorem above_push (w : Version) (hw : w ∈ listedVersions (pushWithCascade body reg pub))
    (a : AliasTag) (ha : a ∈ aliasChain w) : a.toTag ∈ pushWithCascade body reg pub := by
  rcases (h.mem_listedVersions_push body).1 hw with hw | hwrites
  · have hwf := wellFormed_of_mem_aliasChain (h.mem_listedVersions.1 hw).1 ha
    exact (toTag_mem_pushWithCascade body hwf).2 (.inl (h.above w hw a ha))
  · exact h.toTag_mem_push_of_mem_aliasChain body (hwrites.chain rfl ha)

theorem release_mem_push (hpatch : pub.version.hasPatch = true)
    (hpre : pub.version.hasPrerelease = false) :
    pub.version.release ∈ listedVersions (pushWithCascade body reg pub) := by
  rcases release_mem_aliasChain hpatch hpre with hrel | hchain
  · rw [hrel, h.mem_listedVersions_push body]
    exact .inr (.inl rfl)
  · rw [mem_listedVersions_of_nodes (h.node_push body)]
    exact ⟨wellFormed_of_mem_aliasChain pub.wellFormed hchain,
      h.toTag_mem_push_of_mem_aliasChain body hchain⟩

theorem below_push (hpatch : pub.version.hasPatch = true) (a : AliasTag) (ha : a.WellFormed)
    (hrolling : a.isRolling = true) (hmem : a.toTag ∈ pushWithCascade body reg pub) :
    (releasesBelow (pushWithCascade body reg pub) a).Nonempty := by
  rcases (toTag_mem_pushWithCascade body ha).1 hmem with hmem | rfl | hmoved
  · exact (h.below a ha hrolling hmem).mono (h.releasesBelow_push body a)
  · simp [AliasTag.isRolling, hpatch] at hrolling
  · have hchain := mem_aliasChain_of_mem_resolveCascade hmoved
    have hpre := hasPrerelease_of_isRolling hrolling hchain
    exact ⟨pub.version.release, h.release_mem_push body hpatch hpre, isRelease_release hpatch,
      (mem_aliasChain_release_iff hpatch hrolling hpre).2 hchain⟩

/-- A rolling tag of the chain stays where it is because of a greater release, or because the
version's own release stays as well. -/
theorem blocked_cases (hpatch : pub.version.hasPatch = true)
    (hrolling : a.isRolling = true) (ha : a ∈ aliasChain pub.version) (hnot : ¬ Writes reg pub a) :
    (∃ r ∈ releasesBelow reg a, pub.version.release < r) ∨
      ¬ Writes reg pub (.version pub.version.release) := by
  have hpre := hasPrerelease_of_isRolling hrolling ha
  have hmoved : ¬ ∀ w ∈ listedVersions reg, pub.version < w → a ∈ aliasChain w →
      .version w ∈ aliasChain pub.version := fun hall =>
    hnot (.inr ((h.mem_resolveCascade_iff ha).2 hall))
  push Not at hmoved
  obtain ⟨w, hw, hlt, hchain, hblocks⟩ := hmoved
  have hwpre := hasPrerelease_of_isRolling hrolling hchain
  cases hfull : w.hasPatch with
  | true =>
    have hlisted : w.release ∈ listedVersions reg := by
      rcases release_mem_aliasChain hfull hwpre with hrel | hmem
      · rwa [hrel]
      · have hwf := (h.mem_listedVersions.1 hw).1
        exact h.mem_listedVersions.2 ⟨wellFormed_of_mem_aliasChain hwf hmem, h.above w hw _ hmem⟩
    have hle : pub.version.release ≤ w.release :=
      release_le hpatch hpre (isRelease_release hfull) (hlt.le.trans (le_release hfull hwpre))
    rcases hle.lt_or_eq with hless | heq
    · exact .inl ⟨w.release, ⟨hlisted, isRelease_release hfull,
        (mem_aliasChain_release_iff hfull hrolling hwpre).2 hchain⟩, hless⟩
    · -- the blocker is a later build of the same release, so it also keeps the release
      right
      rintro (hself | hmoved)
      · rw [AliasTag.version.inj hself] at heq
        exact absurd (le_release hfull hwpre) (not_le.2 (heq ▸ hlt))
      · have hmem := mem_aliasChain_of_mem_resolveCascade hmoved
        rcases release_mem_aliasChain hfull hwpre with hrel | hwchain
        · exact hblocks (by rwa [heq, hrel] at hmem)
        · exact hblocks ((h.mem_resolveCascade_iff hmem).1 hmoved w hw hlt (heq ▸ hwchain))
  | false =>
    have hwroll : (AliasTag.version w).isRolling = true := by simp [AliasTag.isRolling, hfull]
    obtain ⟨hwf, htag⟩ := h.mem_listedVersions.1 hw
    obtain ⟨r, hr, hrel, hwr⟩ := h.below (.version w) hwf hwroll htag
    have hvr := lt_of_version_mem_aliasChain ha hchain hlt hblocks hwr
    refine .inl ⟨r, ⟨hr, hrel, aliasChain_trans hwr hchain⟩,
      (release_le hpatch hpre hrel hvr.le).lt_of_ne ?_⟩
    rintro rfl
    exact hblocks ((mem_aliasChain_release_iff hpatch hwroll hpre).1 hwr)

/-- Where a push writes neither a rolling tag nor the greatest release below it, both keep what
they carry. -/
theorem agree_of_not_writes (ha : a.WellFormed)
    (hrolling : a.isRolling = true)
    (hs : IsGreatest (releasesBelow (pushWithCascade body reg pub) a) s)
    (hna : ¬ Writes reg pub a) (hns : ¬ Writes reg pub (.version s)) :
    slotAt (pushWithCascade body reg pub) a pub.platform.toNative =
      slotAt (pushWithCascade body reg pub) (.version s) pub.platform.toNative := by
  have hlisted := ((h.mem_listedVersions_push body).1 hs.1.1).resolve_right hns
  have hold : IsGreatest (releasesBelow reg a) s :=
    ⟨⟨hlisted, hs.1.2⟩, fun r hr => hs.2 (h.releasesBelow_push body a hr)⟩
  rw [slotAt_pushWithCascade body ha, if_neg fun hw => hna hw.1,
    slotAt_pushWithCascade body (b := .version s) (h.mem_listedVersions.1 hlisted).1,
    if_neg fun hw => hns hw.1]
  exact h.agree a s ha hrolling hold

/-- A rolling tag that a push moves carries the same as its greatest release afterwards: that is
the release of the pushed version, which moves along. -/
theorem agree_of_moved (hpatch : pub.version.hasPatch = true)
    (ha : a.WellFormed) (hrolling : a.isRolling = true)
    (hs : IsGreatest (releasesBelow (pushWithCascade body reg pub) a) s)
    (hmoved : a ∈ (resolveCascade reg.fetchManifest pub.platform pub.version
      (listedVersions reg)).1) :
    slotAt (pushWithCascade body reg pub) a pub.platform.toNative =
      slotAt (pushWithCascade body reg pub) (.version s) pub.platform.toNative := by
  have hchain := mem_aliasChain_of_mem_resolveCascade hmoved
  have hpre := hasPrerelease_of_isRolling hrolling hchain
  have hall := (h.mem_resolveCascade_iff hchain).1 hmoved
  have hge : pub.version.release ≤ s := hs.2 ⟨h.release_mem_push body hpatch hpre,
    isRelease_release hpatch, (mem_aliasChain_release_iff hpatch hrolling hpre).2 hchain⟩
  have hwrites : Writes reg pub (.version pub.version.release) := by
    rcases release_mem_aliasChain hpatch hpre with hrel | hmem
    · exact .inl (by rw [hrel])
    · exact .inr ((h.mem_resolveCascade_iff hmem).2 fun w hw hlt hw' =>
        hall w hw hlt (aliasChain_trans hw'
          ((mem_aliasChain_release_iff hpatch hrolling hpre).2 hchain)))
  have heq : s = pub.version.release := by
    by_contra hne
    have hns : ¬ Writes reg pub (.version s) := fun hw => hne (hw.eq_release hpatch hs.1.2.1)
    have hlisted := ((h.mem_listedVersions_push body).1 hs.1.1).resolve_right hns
    have hlt : pub.version < s :=
      (le_release hpatch hpre).trans_lt (hge.lt_of_ne fun heq => hne heq.symm)
    exact hne (eq_release_of_mem_aliasChain hpatch hs.1.2.1 (hall s hlisted hlt hs.1.2.2))
  subst heq
  rw [slotAt_pushWithCascade body ha, if_pos ⟨.inr hmoved, rfl⟩,
    slotAt_pushWithCascade body hwrites.wellFormed, if_pos ⟨hwrites, rfl⟩]

theorem agree_push (hpatch : pub.version.hasPatch = true) (a : AliasTag) (s : Version)
    (ha : a.WellFormed) (hrolling : a.isRolling = true)
    (hs : IsGreatest (releasesBelow (pushWithCascade body reg pub) a) s) :
    slotAt (pushWithCascade body reg pub) a pub.platform.toNative =
      slotAt (pushWithCascade body reg pub) (.version s) pub.platform.toNative := by
  by_cases hna : Writes reg pub a
  · rcases hna with rfl | hmoved
    · simp [AliasTag.isRolling, hpatch] at hrolling
    · exact h.agree_of_moved body hpatch ha hrolling hs hmoved
  · refine h.agree_of_not_writes body ha hrolling hs hna fun hns => ?_
    -- the greatest release is that of the pushed version, which a blocked rolling tag excludes
    have heq := hns.eq_release hpatch hs.1.2.1
    have hchain : a ∈ aliasChain pub.version := hns.chain rfl hs.1.2.2
    rcases h.blocked_cases hpatch hrolling hchain hna with ⟨r, hr, hlt⟩ | hstays
    · exact absurd (hs.2 (h.releasesBelow_push body a hr)) (not_le.2 (heq ▸ hlt))
    · exact hstays (heq ▸ hns)

theorem push (hpatch : pub.version.hasPatch = true)
    (hdigest : (Digest.tryFrom pub.digest).isSome = true) :
    Cascaded pub.platform (pushWithCascade body reg pub) where
  node := h.node_push body
  single := h.single.pushWithCascade body hdigest
  above := h.above_push body
  below := h.below_push body hpatch
  agree := h.agree_push body hpatch

end Cascaded

end Push

/-! ### Every sequence of pushes -/

/-- A push of a full version for the platform, with a digest that can be read. -/
structure Publication.FullFor (platform : Platform) (pub : Publication) : Prop where
  /-- The platform is the one all pushes are for. -/
  platform : pub.platform = platform
  patch : pub.version.hasPatch = true
  /-- The digest of the manifest can be read. -/
  digest : (Digest.tryFrom pub.digest).isSome = true

theorem cascaded_empty (platform : Platform) : Cascaded platform ∅ where
  node tag htag := by simp at htag
  single tag t ht := by simp at ht
  above w hw := by simp [listedVersions] at hw
  below a _ _ ha := by simp at ha
  agree a s _ _ hs := by simpa [listedVersions] using hs.1.1

/-- **Rolling tags follow their releases.** After any sequence of pushes of full versions for one
platform, every rolling tag in use carries what the greatest listed release below it carries. -/
theorem cascaded_publish {platform : Platform} (body : ImageIndex → Digest × ℤ)
    {pubs : List Publication} (hpubs : ∀ pub ∈ pubs, pub.FullFor platform) :
    Cascaded platform (publish body pubs) := by
  induction pubs using reverseRecOn with
  | nil => exact cascaded_empty platform
  | append_singleton pubs pub ih =>
    rw [publish, foldl_append]
    obtain ⟨rfl, hpatch, hdigest⟩ := hpubs pub (by simp)
    exact (ih fun x hx => hpubs x (mem_append_left _ hx)).push body hpatch hdigest

end Ocx
