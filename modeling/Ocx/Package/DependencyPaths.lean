import Ocx.Package.ClosureAgree
import Ocx.Package.Compose

/-!
# The paths of dependencies in templates

`${deps.NAME.installPath}` names the content directory of a declared dependency.  The composer finds
it through the resolution state of the package: it keys the closure by repository and looks the
declared dependencies up there.  A closure may hold a repository at several digests, because sealed
and private dependencies are kept apart; the last entry of the repository wins then.

An installed package carries its whole closure, a member of a deferred closure only its declared
edges.  Both go through the same lookup.
-/

namespace Ocx

open List Option

/-! ### Declared dependencies -/

/-- Why a list of dependencies is refused. -/
inductive DependencyError
  | duplicateIdentifier (identifier : PinnedPackageRef)
  | duplicateName (name : String)
  | tooManyDependencies (count max : ℕ)
deriving DecidableEq

open Repository

namespace Dependencies

/-- The most dependencies a package may declare. -/
def maxDependencies : ℕ := 256

/-- What was seen of a list of dependencies. -/
structure Seen where
  ids : List Repository
  names : List String

/-- Note the explicit name of a dependency; a default name is not compared. -/
def Seen.addName (seen : Seen) (dep : Dependency) : Except DependencyError (List String) :=
  match dep.name with
  | some name =>
    if name ∈ seen.names then .error (.duplicateName name) else .ok (name :: seen.names)
  | none => .ok seen.names

/-- Check a dependency against those before it. -/
def Seen.add (seen : Seen) (dep : Dependency) : Except DependencyError Seen := do
  let names ← seen.addName dep
  let key := Repository.ofRef dep.identifier.ref
  if key ∈ seen.ids then .error (.duplicateIdentifier dep.identifier)
  else .ok ⟨key :: seen.ids, names⟩

def new (entries : List Dependency) : Except DependencyError (List Dependency) := do
  if maxDependencies < entries.length then
    .error (.tooManyDependencies entries.length maxDependencies)
  let _ ← entries.foldlM Seen.add ⟨[], []⟩
  .ok entries

theorem ids_of_add {seen seen' : Seen} {dep : Dependency} (h : seen.add dep = .ok seen') :
    ofRef dep.identifier.ref ∉ seen.ids ∧
      seen'.ids = ofRef dep.identifier.ref :: seen.ids := by
  obtain ⟨names, -, h⟩ := bind_eq_ok_iff.1 h
  simp only at h
  split_ifs at h with hkey
  obtain rfl := Except.ok.inj h
  exact ⟨hkey, rfl⟩

theorem nodup_of_foldlM_add {entries : List Dependency} {seen seen' : Seen}
    (h : entries.foldlM Seen.add seen = .ok seen') :
    (entries.map fun d => ofRef d.identifier.ref).Nodup ∧
      ∀ d ∈ entries, ofRef d.identifier.ref ∉ seen.ids := by
  induction entries generalizing seen with
  | nil => simp
  | cons dep entries ih =>
    obtain ⟨next, hadd, hrest⟩ := bind_eq_ok_iff.1 h
    obtain ⟨hnot, hids⟩ := ids_of_add hadd
    obtain ⟨hnodup, hfresh⟩ := ih hrest
    rw [hids] at hfresh
    refine ⟨nodup_cons.2 ⟨fun hmem => ?_, hnodup⟩, forall_mem_cons.2 ⟨hnot, ?_⟩⟩
    · obtain ⟨d, hd, heq⟩ := mem_map.1 hmem
      exact hfresh d hd (heq ▸ mem_cons_self)
    · exact fun d hd hmem => hfresh d hd (mem_cons_of_mem _ hmem)

/-- A checked list has every repository once. -/
theorem nodup_of_new {entries result : List Dependency} (h : new entries = .ok result) :
    (entries.map fun d => ofRef d.identifier.ref).Nodup := by
  rw [new] at h
  split_ifs at h with hcount
  · cases h
  · obtain ⟨seen, hfold, -⟩ := bind_eq_ok_iff.1 h
    exact (nodup_of_foldlM_add hfold).1

end Dependencies

/-! ### The two forms of a package -/

/-- A declared dependency with what it was resolved to. -/
structure DirectDependency where
  declared : Dependency
  identifier : PinnedPackageRef
  resolved : ResolvedPackage
  /-- The choice among the platforms of an image index replaces the digest only. -/
  sameRepository :
    Repository.ofRef identifier.ref = Repository.ofRef declared.identifier.ref

/-- A package with what its declared dependencies were resolved to. -/
structure PulledPackage where
  metadata : Bundle
  /-- The dependencies, in declaration order. -/
  directs : List DirectDependency
  /-- They are the declared ones. -/
  declares : metadata.dependencies = directs.map DirectDependency.declared
  /-- The declared ones passed the checks. -/
  valid : Dependencies.new metadata.dependencies = .ok metadata.dependencies

/-- The resolution state of a member of a deferred closure: its declared edges. -/
def closureMember (edges : List ClosureEdge) : ResolvedPackage :=
  ⟨edges.map fun edge => ⟨edge.identifier, edge.visibility⟩⟩

namespace PulledPackage

variable (p : PulledPackage)

/-- The direct dependencies as the closure is built from them. -/
def children : List (PinnedPackageRef × ResolvedPackage × Visibility) :=
  p.directs.map fun d => (d.identifier, d.resolved, d.declared.visibility)

/-- The resolution state of the installed package. -/
def resolved : ResolvedPackage := ResolvedPackage.new.withDependencies p.children

/-- The resolution state of the package as a member of a deferred closure. -/
def deferred : ResolvedPackage :=
  closureMember (p.metadata.dependencies.map fun d =>
    ⟨d.identifier, d.visibility, d.interpolationName⟩)

/-- The identities in the order in which the closure records them, with repetitions. -/
def recorded : List PinnedPackageRef := (inherited p.children).map Prod.fst

end PulledPackage

/-! ### The lookup -/

/-- The package a declared dependency stands for: the last entry of its repository. -/
def resolvedIdOf (resolved : ResolvedPackage) (d : Dependency) : PinnedPackageRef :=
  (lastValue (resolved.dependencies.map fun t => (Repository.ofRef t.identifier.ref, t.identifier))
    (Repository.ofRef d.identifier.ref)).getD d.identifier

def contextAt (site : Site) (id : PinnedPackageRef) : DependencyContext :=
  ⟨id, (site.packageDir id).content⟩

theorem getElem?_buildDepContextMap (site : Site) (metadata : Bundle) (resolved : ResolvedPackage)
    (name : String) : (buildDepContextMap site metadata resolved)[name]? =
      lastValue (metadata.dependencies.map fun d =>
        (d.interpolationName, contextAt site (resolvedIdOf resolved d))) name := by
  rw [buildDepContextMap, getElem?_foldl_insert]
  simp [resolvedIdOf, contextAt]

theorem stripAdvisory_resolvedIdOf (resolved : ResolvedPackage) (d : Dependency) :
    (resolvedIdOf resolved d).stripAdvisory =
      (lastValue ((resolved.pairs.map Prod.fst).map fun k => (ofRef k.ref, k))
        (ofRef d.identifier.ref)).getD d.identifier.stripAdvisory := by
  rw [resolvedIdOf, ← Option.getD_map PinnedPackageRef.stripAdvisory, ← lastValue_map]
  simp only [ResolvedPackage.pairs, List.map_map]
  rfl

namespace PulledPackage

variable {p : PulledPackage}

theorem nodup_repositories (p : PulledPackage) :
    (p.directs.map fun d => ofRef d.identifier.ref).Nodup := by
  have hnodup := Dependencies.nodup_of_new p.valid
  rw [p.declares, List.map_map] at hnodup
  refine (map_congr_left fun d _ => ?_) ▸ hnodup
  exact d.sameRepository.symm

variable {d : DirectDependency}

theorem eq_of_repository_eq {d' : DirectDependency} (hd : d ∈ p.directs) (hd' : d' ∈ p.directs)
    (h : ofRef d.identifier.ref = ofRef d'.identifier.ref) : d = d' :=
  inj_on_of_nodup_map p.nodup_repositories hd hd' h

theorem mem_recorded (hd : d ∈ p.directs) :
    d.identifier.stripAdvisory ∈ p.recorded := by
  refine mem_map.2 ⟨(d.identifier.stripAdvisory, d.declared.visibility), ?_, rfl⟩
  refine mem_flatMap.2 ⟨_, mem_map.2 ⟨d, hd, rfl⟩, ?_⟩
  exact mem_append_right _ (mem_singleton.2 rfl)

/-- **Installed packages.** A direct dependency stands for itself exactly if no other digest of its
repository is recorded for the first time after it. -/
theorem identity_resolved_iff (hd : d ∈ p.directs) :
    (resolvedIdOf p.resolved d.declared).stripAdvisory = d.identifier.stripAdvisory ↔
      ∀ k ∈ p.recorded, ofRef k.ref = ofRef d.identifier.ref →
        p.recorded.idxOf k ≤ p.recorded.idxOf d.identifier.stripAdvisory := by
  have hkeys : p.resolved.pairs.map Prod.fst = addAllNew [] p.recorded := by
    rw [resolved, withDependencies_pairs, map_fst_mergeAll, recorded]
  rw [stripAdvisory_resolvedIdOf, hkeys, ← d.sameRepository, lastValue_map_eq_find?]
  constructor
  · intro h k hk hkref
    cases hc : (addAllNew [] p.recorded).reverse.find? fun k => ofRef k.ref =
        ofRef d.identifier.ref with
    | none => exact absurd hkref (by simpa using find?_eq_none.1 hc k (by simpa using hk))
    | some k' =>
      rw [hc, getD_some] at h
      exact h ▸ (find?_reverse_addAllNew_iff.1 hc).2.2 k hk (decide_eq_true hkref)
  · intro h
    rw [find?_reverse_addAllNew_iff.2 ⟨mem_recorded hd, decide_eq_true rfl,
      fun k hk hkref => h k hk (of_decide_eq_true hkref)⟩, getD_some]

theorem identity_deferred (hd : d ∈ p.directs) :
    resolvedIdOf p.deferred d.declared = d.declared.identifier := by
  have hnodup := Dependencies.nodup_of_new p.valid
  have hdeclared : d.declared ∈ p.metadata.dependencies := by
    rw [p.declares]
    exact mem_map_of_mem hd
  rw [resolvedIdOf, lastValue_of_unique (c := d.declared.identifier), getD_some]
  · simpa [deferred, closureMember, Function.comp_def] using hnodup
  · simp only [deferred, closureMember, List.map_map, List.mem_map]
    exact ⟨d.declared, hdeclared, rfl⟩

/-! ### Names and packages -/

/-- What a template reads of a dependency, apart from its advisory tag. -/
def answer (context : DependencyContext) : PinnedPackageRef × String :=
  (context.identifier.stripAdvisory, context.installPath)

/-- Every name stands for its own dependency, and the deferred form says the same. -/
structure PathsRight (site : Site) (p : PulledPackage) : Prop where
  /-- The name of a direct dependency leads to the package it was resolved to. -/
  own : ∀ d ∈ p.directs,
    ((buildDepContextMap site p.metadata p.resolved)[d.declared.interpolationName]?).map answer =
      some (answer (contextAt site d.identifier))
  /-- The deferred form of the package gives the same answers. -/
  agree : ∀ name : String, ((buildDepContextMap site p.metadata p.resolved)[name]?).map answer =
    ((buildDepContextMap site p.metadata p.deferred)[name]?).map answer

/-- No direct dependency is shadowed. -/
structure Unshadowed (p : PulledPackage) : Prop where
  /-- The names are distinct, the default ones included. -/
  names : (p.directs.map fun d => d.declared.interpolationName).Nodup
  /-- Every declared digest is that of a package, not of an image index. -/
  platform : ∀ d ∈ p.directs,
    d.identifier.stripAdvisory = d.declared.identifier.stripAdvisory
  /-- No other digest of the repository is recorded for the first time after the dependency. -/
  last : ∀ d ∈ p.directs, ∀ k ∈ p.recorded,
    Repository.ofRef k.ref = Repository.ofRef d.identifier.ref →
      p.recorded.idxOf k ≤ p.recorded.idxOf d.identifier.stripAdvisory

theorem answer_of_nodup (hnames : (p.directs.map fun d => d.declared.interpolationName).Nodup)
    (site : Site) (resolved : ResolvedPackage) (hd : d ∈ p.directs) :
    ((buildDepContextMap site p.metadata resolved)[d.declared.interpolationName]?).map answer =
      some (answer (contextAt site (resolvedIdOf resolved d.declared))) := by
  have hlast : lastValue (p.directs.map fun d => (d.declared.interpolationName,
      contextAt site (resolvedIdOf resolved d.declared))) d.declared.interpolationName =
        some (contextAt site (resolvedIdOf resolved d.declared)) := by
    refine lastValue_of_unique ?_ (List.mem_map.2 ⟨d, hd, rfl⟩)
    rw [List.map_map]
    exact hnames
  rw [getElem?_buildDepContextMap, p.declares, List.map_map]
  exact congrArg (Option.map answer) hlast

theorem PathsRight.names {site : Site} (h : PathsRight site p) :
    (p.directs.map fun d => d.declared.interpolationName).Nodup := by
  refine List.Nodup.map_on (fun d hd d' hd' hname => ?_) (List.Nodup.of_map _ p.nodup_repositories)
  -- one name has one answer, so both were resolved to one package
  have hown := h.own d hd
  rw [hname, h.own d' hd'] at hown
  have hidentity := congrArg Prod.fst (some.inj hown)
  exact eq_of_repository_eq hd hd'
    (congrArg (fun k : PinnedPackageRef => ofRef k.ref) hidentity).symm

/-- **Dependency paths.** Every name stands for its own dependency, and the deferred form of the
package agrees, exactly if no direct dependency is shadowed. -/
theorem pathsRight_iff (site : Site)
    (hsite : ∀ id, site.packageDir id = site.packageDir id.stripAdvisory) (p : PulledPackage) :
    PathsRight site p ↔ Unshadowed p := by
  have hanswer (a b : PinnedPackageRef) :
      answer (contextAt site a) = answer (contextAt site b) ↔
        a.stripAdvisory = b.stripAdvisory := by
    simp only [answer, contextAt]
    rw [hsite a, hsite b, Prod.mk.injEq, and_iff_left_iff_imp]
    exact fun h => h ▸ rfl
  constructor
  · intro h
    have hnames := h.names
    have howns : ∀ d ∈ p.directs,
        (resolvedIdOf p.resolved d.declared).stripAdvisory = d.identifier.stripAdvisory := by
      intro d hd
      have hown := h.own d hd
      rw [answer_of_nodup hnames site _ hd, some.injEq, hanswer] at hown
      exact hown
    refine ⟨hnames, fun d hd => ?_, fun d hd => (identity_resolved_iff hd).1 (howns d hd)⟩
    have hagree := h.agree d.declared.interpolationName
    rw [answer_of_nodup hnames site _ hd, answer_of_nodup hnames site _ hd, some.injEq,
      hanswer, identity_deferred hd, howns d hd] at hagree
    exact hagree
  · rintro ⟨hnames, hplatform, hlast⟩
    have howns :=  fun d hd => (identity_resolved_iff hd).2 (hlast d hd)
    refine ⟨fun d hd => ?_, fun name => ?_⟩
    · rw [answer_of_nodup hnames site _ hd, some.injEq, hanswer]
      exact howns d hd
    · rw [getElem?_buildDepContextMap, getElem?_buildDepContextMap, ← lastValue_map,
        ← lastValue_map, p.declares, List.map_map, List.map_map, List.map_map, List.map_map]
      refine congrArg (lastValue · name) (map_congr_left fun d hd => ?_)
      have hsame : (resolvedIdOf p.resolved d.declared).stripAdvisory =
          (resolvedIdOf p.deferred d.declared).stripAdvisory := by
        rw [howns d hd, identity_deferred hd, hplatform d hd]
      exact Prod.ext rfl ((hanswer _ _).2 hsame)

/-! ### A build tool and its runtime -/

/-- Packages live under their digests. -/
def digestSite : Site :=
  ⟨⟨.unix, id, fun _ => false, fun _ path => path, fun _ => true⟩,
    fun id => ⟨id.digest.hex ++ "/content", id.digest.hex ++ "/entrypoints"⟩,
    fun _ id => .error (.notFound id)⟩

def onJava : DirectDependency :=
  ⟨⟨sampleRef "java" "17", .interface, none⟩, sampleRef "java" "17", .new, rfl⟩

/-- A dependency on a build tool that is sealed off with another Java. -/
def onMaven : DirectDependency :=
  ⟨⟨sampleRef "maven" "3", .interface, none⟩, sampleRef "maven" "3",
    ResolvedPackage.new.withDependencies [(sampleRef "java" "21", .new, .sealed)], rfl⟩

/-- A package that declares Java before the build tool. -/
def javaFirst : PulledPackage where
  metadata := ⟨[], [onJava.declared, onMaven.declared], [], none, []⟩
  directs := [onJava, onMaven]
  declares := rfl
  valid := rfl

/-- A package that declares the build tool first. -/
def mavenFirst : PulledPackage where
  metadata := ⟨[], [onMaven.declared, onJava.declared], [], none, []⟩
  directs := [onMaven, onJava]
  declares := rfl
  valid := rfl

/-- The sealed Java of the build tool takes the name of the declared one. -/
theorem javaFirst_shadowed :
    ((buildDepContextMap digestSite javaFirst.metadata javaFirst.resolved)["java"]?).map answer =
        some (sampleRef "java" "21", "21/content") ∧
      ((buildDepContextMap digestSite javaFirst.metadata javaFirst.deferred)["java"]?).map answer =
        some (sampleRef "java" "17", "17/content") ∧
      ¬ PathsRight digestSite javaFirst := by
  have heager : ((buildDepContextMap digestSite javaFirst.metadata
      javaFirst.resolved)["java"]?).map answer = some (sampleRef "java" "21", "21/content") := by
    decide +kernel
  refine ⟨heager, by decide +kernel, fun h => ?_⟩
  have hown := h.own onJava mem_cons_self
  exact absurd hown (by decide +kernel)

/-- Declared after the build tool, Java keeps its name. -/
theorem mavenFirst_pathsRight :
    (∀ id, digestSite.packageDir id = digestSite.packageDir id.stripAdvisory) ∧
      PathsRight digestSite mavenFirst := by
  refine ⟨fun _ => rfl, (pathsRight_iff digestSite (fun _ => rfl) mavenFirst).2 ⟨?_, ?_, ?_⟩⟩
  · decide +kernel
  · intro d hd
    fin_cases hd <;> rfl
  · intro d hd
    fin_cases hd <;> decide +kernel

end PulledPackage

end Ocx
