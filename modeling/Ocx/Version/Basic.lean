import Ocx.Util.Order

/-!
# Package versions

A version is a semver-like number with rolling parents (`3`, `3.28`) and an optional variant
(`debug-3.12.5`). Versions carry a total order in which a rolling version sorts *after* every
version below it: a missing component is greater than any present one.
-/

namespace Ocx

open List Option

/-- Build and pre-release segment of a version that has a patch number. -/
abbrev PatchRest := Option String × Option String

/-- Patch number and what follows it. -/
abbrev MinorRest := Option (UInt32 × PatchRest)

/-- A package version. The rest is `(minor, (patch, (build, prerelease)))`, nested so that no part
exists without its parent. -/
@[ext] structure Version where
  /-- `none` is the default variant. -/
  variant : Option String
  major : UInt32
  /-- Minor number and what follows it. -/
  rest : Option (UInt32 × MinorRest)
deriving DecidableEq, Repr

namespace Version

def newMajor (major : UInt32) : Version := ⟨none, major, none⟩

/-- A version up to its minor number. -/
def newMinor (major minor : UInt32) : Version := ⟨none, major, some (minor, none)⟩

/-- A version up to its patch number. -/
def newPatch (major minor patch : UInt32) : Version :=
  ⟨none, major, some (minor, some (patch, none, none))⟩

def newBuild (major minor patch : UInt32) (build : String) : Version :=
  ⟨none, major, some (minor, some (patch, some build, none))⟩

/-- A pre-release. -/
def newPrerelease (major minor patch : UInt32) (prerelease : String) : Version :=
  ⟨none, major, some (minor, some (patch, none, some prerelease))⟩

/-- A build of a pre-release. -/
def newPrereleaseWithBuild (major minor patch : UInt32) (prerelease build : String) : Version :=
  ⟨none, major, some (minor, some (patch, some build, some prerelease))⟩

/-! ### Components -/

/-- The minor number, if there is one. -/
def minor (v : Version) : Option UInt32 := v.rest.map Prod.fst

/-- The patch number, if there is one. -/
def patch (v : Version) : Option UInt32 := (v.rest.bind Prod.snd).map Prod.fst

/-- The build segment, if there is one. -/
def build (v : Version) : Option String := (v.rest.bind Prod.snd).bind (fun p => p.2.1)

/-- The pre-release segment, if there is one. -/
def prerelease (v : Version) : Option String := (v.rest.bind Prod.snd).bind (fun p => p.2.2)

/-- Whether the version names a patch number. -/
def hasPatch (v : Version) : Bool := v.patch.isSome

/-- Whether the version names a build. -/
def hasBuild (v : Version) : Bool := v.build.isSome

/-- Whether the version is a pre-release. -/
def hasPrerelease (v : Version) : Bool := v.prerelease.isSome

/-- The parent version with the variant kept, or `none` for a bare major. -/
def parent (v : Version) : Option Version :=
  match v.rest with
  | none => none
  | some (_, none) => some { v with rest := none }
  | some (minor, some (patch, (build, prerelease))) =>
    if build.isSome then some { v with rest := some (minor, some (patch, (none, prerelease))) }
    else if prerelease.isSome then some { v with rest := some (minor, some (patch, (none, none))) }
    else some { v with rest := some (minor, none) }

/-- How many times `parent` can be taken. -/
def depth (v : Version) : ℕ :=
  match v.rest with
  | none => 0
  | some (_, none) => 1
  | some (_, some (_, (build, prerelease))) =>
    2 + (if prerelease.isSome then 1 else 0) + (if build.isSome then 1 else 0)

/-- The values reached from `v` by taking the parent again and again, at most `n` of them. -/
def successors : ℕ → Option Version → List Version
  | 0, _ => []
  | _ + 1, none => []
  | n + 1, some v => v :: successors n v.parent

/-- The rolling versions above `v`, the most specific first. -/
def ancestors (v : Version) : List Version := successors v.depth v.parent

/-! ### Order -/

/-- Comparison of versions. The default variant sorts last, and a missing component sorts after
every present one. -/
def cmp (l r : Version) : Ordering :=
  (cmpNoneLast compare l.variant r.variant).then <|
  (compare l.major r.major).then <|
  cmpNoneLast (fun (l r : UInt32 × MinorRest) =>
    (compare l.1 r.1).then <|
    cmpNoneLast (fun (l r : UInt32 × PatchRest) =>
      (compare l.1 r.1).then <|
      (cmpNoneLast compare l.2.2 r.2.2).then (cmpNoneLast compare l.2.1 r.2.1)) l.2 r.2)
    l.rest r.rest

/-- The lexicographic key of a version: a missing component is the top element. -/
abbrev Key :=
  WithTop String ×ₗ ℕ ×ₗ WithTop ℕ ×ₗ WithTop ℕ ×ₗ WithTop String ×ₗ WithTop String

def key (v : Version) : Key :=
  toLex (top id v.variant, toLex (v.major.toNat, toLex (top UInt32.toNat v.minor,
    toLex (top UInt32.toNat v.patch, toLex (top id v.prerelease, top id v.build)))))

theorem key_injective : key.Injective := by
  intro v w h
  have hnat : UInt32.toNat.Injective := fun a b => UInt32.toNat_inj.1
  simp only [key, EmbeddingLike.apply_eq_iff_eq, Prod.mk.injEq, hnat.eq_iff,
    (top_injective hnat).eq_iff, (top_injective Function.injective_id).eq_iff] at h
  obtain ⟨var, maj, rest⟩ := v
  obtain ⟨var', maj', rest'⟩ := w
  rcases rest with _ | ⟨m, _ | ⟨p, b, pre⟩⟩ <;> rcases rest' with _ | ⟨m', _ | ⟨p', b', pre'⟩⟩ <;>
    simp_all [minor, patch, prerelease, build]

theorem cmp_eq_compare_key (v w : Version) : v.cmp w = compare v.key w.key := by
  have hstr (a b : Option String) : cmpNoneLast compare a b = compare (top id a) (top id b) :=
    cmpNoneLast_eq_compare_top (fun _ _ => rfl) a b
  obtain ⟨var, maj, rest⟩ := v
  obtain ⟨var', maj', rest'⟩ := w
  simp only [cmp, key, compare_toLex, hstr, UInt32.compare_eq_toNat_compare_toNat]
  rcases rest with _ | ⟨m, _ | ⟨p, b, pre⟩⟩ <;> rcases rest' with _ | ⟨m', _ | ⟨p', b', pre'⟩⟩ <;>
    simp only [cmpNoneLast, minor, patch, prerelease, build, map_none, map_some,
      bind_none, bind_some, top_none, top_some, compare_withTop_coe,
      compare_withTop_top_coe, compare_withTop_coe_top, Std.compare_self, Ordering.then_self,
      Ordering.then_eq, Ordering.gt_then, Ordering.lt_then]

instance : LinearOrder Version := linearOrderOfKey key key_injective cmp cmp_eq_compare_key

instance : Std.TransCmp (compare : Version → Version → Ordering) := inferInstance

theorem cmp_eq_compare (v w : Version) : v.cmp w = compare v w := rfl

variable {v w p a : Version}

theorem le_iff_key : v ≤ w ↔ v.key ≤ w.key := Iff.rfl

theorem lt_iff_key : v < w ↔ v.key < w.key := Iff.rfl

/-! ### Intervals

Between two versions that agree on their leading components lie only versions that agree with them
there. -/

theorem eq_of_between (hv : v ≤ w) (hw : w ≤ a) (h : v.variant = a.variant) :
    w.variant = a.variant ∧ (v.major = a.major → w.major = a.major ∧
      (v.minor = a.minor → w.minor = a.minor ∧ (v.patch = a.patch → w.patch = a.patch ∧
        (v.prerelease = a.prerelease → w.prerelease = a.prerelease ∧
          top id w.build ≤ top id a.build)))) := by
  have hnat : UInt32.toNat.Injective := fun a b => UInt32.toNat_inj.1
  rw [le_iff_key, key, key, h] at hv
  obtain ⟨hvar, hv, hw⟩ := toLex_squeeze hv hw
  refine ⟨top_injective Function.injective_id hvar, fun h => ?_⟩
  rw [h] at hv
  obtain ⟨hmaj, hv, hw⟩ := toLex_squeeze hv hw
  refine ⟨hnat hmaj, fun h => ?_⟩
  rw [h] at hv
  obtain ⟨hmin, hv, hw⟩ := toLex_squeeze hv hw
  refine ⟨top_injective hnat hmin, fun h => ?_⟩
  rw [h] at hv
  obtain ⟨hpat, hv, hw⟩ := toLex_squeeze hv hw
  refine ⟨top_injective hnat hpat, fun h => ?_⟩
  rw [h] at hv
  obtain ⟨hpre, -, hb⟩ := toLex_squeeze hv hw
  exact ⟨top_injective Function.injective_id hpre, hb⟩

/-! ### Ancestors -/

theorem ancestors_eq (v : Version) :
    v.ancestors = match v.parent with
      | none => []
      | some p => p :: p.ancestors := by
  obtain ⟨var, maj, rest⟩ := v
  rcases rest with _ | ⟨m, _ | ⟨p, _ | b, _ | pre⟩⟩ <;>
    simp [ancestors, parent, depth, successors]

theorem ancestors_of_parent_eq_none (h : v.parent = none) : v.ancestors = [] := by
  rw [ancestors_eq, h]

theorem ancestors_of_parent_eq_some (h : v.parent = some p) :
    v.ancestors = p :: p.ancestors := by
  rw [ancestors_eq, h]

theorem depth_of_parent_eq_some (h : v.parent = some p) :
    v.depth = p.depth + 1 := by
  obtain ⟨var, maj, rest⟩ := v
  rcases rest with _ | ⟨m, _ | ⟨p, _ | b, _ | pre⟩⟩ <;> simp [parent] at h <;> subst h <;>
    simp [depth]

theorem parentInduction {motive : Version → Prop} (root : ∀ v, v.parent = none → motive v)
    (child : ∀ v p, v.parent = some p → motive p → motive v) (v : Version) : motive v := by
  induction hn : v.depth generalizing v with
  | zero =>
    refine root v ?_
    cases hp : v.parent with
    | none => rfl
    | some p => rw [depth_of_parent_eq_some hp] at hn; omega
  | succ n ih =>
    cases hp : v.parent with
    | none => exact root v hp
    | some p => exact child v p hp (ih p (by rw [depth_of_parent_eq_some hp] at hn; omega))

theorem lt_of_parent_eq_some (h : v.parent = some p) : v < p := by
  obtain ⟨var, maj, rest⟩ := v
  rw [lt_iff_key]
  rcases rest with _ | ⟨m, _ | ⟨p, _ | b, _ | pre⟩⟩ <;> simp [parent] at h <;> subst h <;>
    simp [key, Prod.Lex.toLex_lt_toLex, minor, patch, prerelease, build]

theorem ancestors_sorted (v : Version) : (v :: v.ancestors).Pairwise (· < ·) := by
  induction v using parentInduction with
  | root v h => simp [ancestors_of_parent_eq_none h]
  | child v p h ih =>
    rw [ancestors_of_parent_eq_some h]
    have hvp := lt_of_parent_eq_some h
    refine pairwise_cons.2 ⟨fun a ha => ?_, ih⟩
    rcases mem_cons.1 ha with rfl | ha
    · exact hvp
    · exact hvp.trans ((pairwise_cons.1 ih).1 a ha)

theorem lt_of_mem_ancestors (h : a ∈ v.ancestors) : v < a :=
  (pairwise_cons.1 v.ancestors_sorted).1 a h

theorem mem_ancestors_trans (hw : w ∈ v.ancestors) (ha : a ∈ w.ancestors) :
    a ∈ v.ancestors := by
  induction v using parentInduction with
  | root v h => simp [ancestors_of_parent_eq_none h] at hw
  | child v p h ih =>
    rw [ancestors_of_parent_eq_some h] at hw ⊢
    rcases mem_cons.1 hw with rfl | hw
    · exact mem_cons_of_mem _ ha
    · exact mem_cons_of_mem _ (ih hw)

theorem forall_mem_ancestors {I P : Version → Prop}
    (hstep : ∀ v p, v.parent = some p → I v → I p ∧ P p) (hv : I v)
    (ha : a ∈ v.ancestors) : P a := by
  induction v using parentInduction with
  | root v hp => simp [ancestors_of_parent_eq_none hp] at ha
  | child v p hp ih =>
    obtain ⟨hinv, hP⟩ := hstep v p hp hv
    rw [ancestors_of_parent_eq_some hp] at ha
    rcases mem_cons.1 ha with rfl | ha
    · exact hP
    · exact ih hinv ha

theorem variant_of_mem_ancestors (h : a ∈ v.ancestors) :
    a.variant = v.variant := by
  refine forall_mem_ancestors (I := fun w => w.variant = v.variant)
    (P := fun w => w.variant = v.variant) ?_ rfl h
  rintro ⟨var, maj, rest⟩ p hp hw
  rcases rest with _ | ⟨m, _ | ⟨q, _ | b, _ | pre⟩⟩ <;> simp [parent] at hp <;> subst hp <;>
    exact ⟨hw, hw⟩

theorem hasBuild_of_mem_ancestors (h : a ∈ v.ancestors) : a.hasBuild = false := by
  refine forall_mem_ancestors (I := fun _ => True) (P := fun w => w.hasBuild = false) ?_ trivial h
  rintro ⟨var, maj, rest⟩ p hp -
  rcases rest with _ | ⟨m, _ | ⟨q, _ | b, _ | pre⟩⟩ <;> simp [parent] at hp <;> subst hp <;>
    exact ⟨trivial, rfl⟩

theorem hasPrerelease_of_mem_ancestors (hv : v.hasPrerelease = false)
    (h : a ∈ v.ancestors) : a.hasPrerelease = false := by
  refine forall_mem_ancestors (I := fun w => w.hasPrerelease = false)
    (P := fun w => w.hasPrerelease = false) ?_ hv h
  rintro ⟨var, maj, rest⟩ p hp hw
  rcases rest with _ | ⟨m, _ | ⟨q, _ | b, _ | pre⟩⟩ <;> simp [parent] at hp <;> subst hp <;>
    simp_all [hasPrerelease, prerelease]

theorem mem_ancestors_of_between_parent (h : v.parent = some p) (hv : v ≤ w)
    (hw : w ≤ p) : w = p ∨ p ∈ w.ancestors := by
  have heq := eq_of_between hv hw
  obtain ⟨var, maj, rest⟩ := v
  obtain ⟨var', maj', rest'⟩ := w
  rcases rest with _ | ⟨m, _ | ⟨p, _ | b, _ | pre⟩⟩ <;> simp [parent] at h <;> subst h <;>
    rcases rest' with _ | ⟨m', _ | ⟨p', _ | b', _ | pre'⟩⟩ <;>
    simp_all [minor, patch, prerelease, build, ancestors, parent, depth, successors]

/-- **Rolling versions are intervals.** A version between `v` and a rolling version above `v` is
that rolling version or lies below it. -/
theorem mem_ancestors_of_between (ha : a ∈ v.ancestors) (hv : v ≤ w)
    (hw : w ≤ a) : w = a ∨ a ∈ w.ancestors := by
  induction v using parentInduction with
  | root v h => simp [ancestors_of_parent_eq_none h] at ha
  | child v p h ih =>
    rcases le_total w p with hp | hp
    · have hwp := mem_ancestors_of_between_parent h hv hp
      rw [ancestors_of_parent_eq_some h] at ha
      rcases mem_cons.1 ha with rfl | ha
      · exact hwp
      · rcases hwp with rfl | hwp
        · exact .inr ha
        · exact .inr (mem_ancestors_trans hwp ha)
    · rw [ancestors_of_parent_eq_some h] at ha
      rcases mem_cons.1 ha with rfl | ha
      · exact .inl (le_antisymm hw hp)
      · exact ih ha hp

end Version

end Ocx
