import Ocx.Package.Compose

/-!
# Grafts emit every variable once

A package is emitted on its axes: each of its variables whose visibility meets them has been emitted
once, the others not at all.  Opening more axes emits the variables that meet the new ones and none
of the old ones, so a graft keeps this whether it reaches a package as a companion or as a
dependency.  What a graft opens does not depend on what was open before, so the order of grafts does
not matter.
-/

namespace Ocx

open List

variable {crosses : Visibility → Bool} {emitted : Emitted} {emissions : PinnedPackageRef → ℕ → ℕ}
  {site : Site} {root : InstallInfo} {axes : Visibility} {collect : Bool} {out out' : ComposeOutput}
  {grafts : List Graft}

/-! ### Emitting a package -/

/-- A variable counts once if its visibility has the property. -/
def share (env : List EnvVar) (i : ℕ) (f : Visibility → Bool) : ℕ :=
  (env[i]?).elim 0 fun v => if f v.visibility then 1 else 0

theorem share_cons_zero (v : EnvVar) (env : List EnvVar) (f : Visibility → Bool) :
    share (v :: env) 0 f = if f v.visibility then 1 else 0 := rfl

theorem share_cons_succ (v : EnvVar) (env : List EnvVar) (i : ℕ) (f : Visibility → Bool) :
    share (v :: env) (i + 1) f = share env i f := rfl

theorem share_merge (env : List EnvVar) (i : ℕ) (done new : Visibility) :
    share env i (onAxes · (done.merge new)) =
      share env i (onAxes · done) + share env i (crossesAnew · new done) := by
  unfold share
  cases env[i]? with
  | none => rfl
  | some v =>
    simp only [Option.elim_some, onAxes_merge, crossesAnew]
    rcases Bool.eq_false_or_eq_true (onAxes v.visibility done) with hdone | hdone <;>
      rcases Bool.eq_false_or_eq_true (onAxes v.visibility new) with hnew | hnew <;>
      simp [hdone, hnew]

theorem EnvResolver.count_emitVars {r : EnvResolver} {n : ℕ}
    {st st' : EmitState} {vars : List EnvVar} (hknown : ∀ v ∈ vars, v.value.isSome)
    (h : r.emitVars crosses n st vars = .ok st') (i : ℕ) :
    (st'.entries.map Prod.fst).count i = (st.entries.map Prod.fst).count i +
      if n ≤ i then share vars (i - n) crosses else 0 := by
  induction vars generalizing n st with
  | nil =>
    rw [← Except.ok.inj h]
    simp [share]
  | cons var vars ih =>
    obtain ⟨entry, -, -, h⟩ := emitVars_cons_eq_ok (hknown var mem_cons_self) h
    rw [ih (fun v hv => hknown v (mem_cons_of_mem _ hv)) h]
    have hrecord : ((st.record n (crosses var.visibility) entry).entries.map Prod.fst).count i =
        (st.entries.map Prod.fst).count i +
          if n = i ∧ crosses var.visibility = true then 1 else 0 := by
      by_cases hcross : crosses var.visibility = true
      · simp [EmitState.record, hcross, count_singleton]
      · simp [EmitState.record, hcross]
    rw [hrecord, Nat.add_assoc]
    rcases Nat.lt_trichotomy n i with hlt | rfl | hgt
    · obtain ⟨k, rfl⟩ := Nat.exists_eq_add_of_lt hlt
      rw [if_neg (by omega), if_pos (by omega), if_pos (by omega),
        show n + k + 1 - n = k + 1 by omega, show n + k + 1 - (n + 1) = k by omega,
        share_cons_succ, Nat.zero_add]
    · simp [share_cons_zero]
    · rw [if_neg (by omega), if_neg (by omega), if_neg (by omega)]

theorem count_composeVars {package : PinnedPackageRef} {b : Bundle} {r : EnvResolver}
    {entries : List ComposedEntry}
    (hknown : ∀ v ∈ b.env, v.value.isSome) (h : composeVars package b r crosses = .ok entries)
    (q : PinnedPackageRef) (i : ℕ) :
    (entries.filterMap ComposedEntry.declared?).count (q, i) =
      if q = package.stripAdvisory then share b.env i crosses else 0 := by
  obtain ⟨emitted, hemitted, h⟩ := bind_eq_ok_iff.1 h
  obtain ⟨st, hst, hentries⟩ := bind_eq_ok_iff.1 (mapError_eq_ok_iff.1 hemitted)
  have hcount := EnvResolver.count_emitVars hknown hst i
  rw [← Except.ok.inj h, ← Except.ok.inj hentries, filterMap_map]
  have hpairs : st.entries.filterMap (ComposedEntry.declared? ∘ fun e =>
        ComposedEntry.declared package.stripAdvisory e.1 e.2) =
      (st.entries.map Prod.fst).map fun j => (package.stripAdvisory, j) := by
    rw [map_map, ← filterMap_eq_map]
    rfl
  rw [hpairs]
  split_ifs with hq
  · rw [hq, count_map_of_injective _ _ (fun a b hab => (Prod.mk.inj hab).2), hcount]
    simp [EnvResolver.EmitState.new]
  · rw [count_eq_zero]
    intro hmem
    obtain ⟨j, -, hj⟩ := mem_map.1 hmem
    exact hq (Prod.mk.inj hj).1.symm

/-! ### The invariant -/

section Grafts

variable (declared : PinnedPackageRef → List EnvVar)

/-- What was emitted is exactly what the axes say: `emissions` counts how often the variable at a
position of a package has been emitted. -/
def EmittedOnce (emitted : Emitted) (emissions : PinnedPackageRef → ℕ → ℕ) : Prop :=
  ∀ p i, emissions p i = share (declared p) i (onAxes · (emitted.axes p))

/-- A graft reads the metadata that belongs to the packages: a package is named by its digest. -/
structure Graft.Faithful (g : Graft) : Prop where
  companion : g.companion.metadata.env = declared g.companion.identifier.stripAdvisory
  load : ∀ id data, g.site.load g.companion id = .ok data →
    data.metadata.env = declared id.stripAdvisory

/-- What emitting a package on more axes adds. -/
def added (p : PinnedPackageRef) (new done : Visibility) (q : PinnedPackageRef) (i : ℕ) : ℕ :=
  if q = p then share (declared p) i (crossesAnew · new done) else 0

/-- What is still to be emitted of the visible dependencies. -/
def owed (visible : List (PinnedPackageRef × Visibility)) (q : PinnedPackageRef) (i : ℕ) : ℕ :=
  (visible.map fun e => added declared e.1.stripAdvisory .interface e.2 q i).sum

variable {declared}

/-- **Emitting what is new on more axes keeps the invariant.** -/
theorem EmittedOnce.write
    (h : EmittedOnce declared emitted emissions) (p : PinnedPackageRef) (new : Visibility) :
    EmittedOnce declared (emitted.write (p, new)) fun q i =>
      emissions q i + added declared p new (emitted.axes p) q i := by
  intro q i
  dsimp only
  rw [h q i, added, Emitted.axes_write]
  split_ifs with hq
  · rw [← hq, share_merge]
  · rw [Nat.add_zero]

theorem EmittedOnce.visit {v : GraftVisit}
    (h : EmittedOnce declared v.seen fun q i => emissions q i + owed declared v.visible q i)
    (rootKey : PinnedPackageRef) (axes : Visibility) (dep : ResolvedDependency) :
    EmittedOnce declared (v.step rootKey axes dep).seen fun q i =>
      emissions q i + owed declared (v.step rootKey axes dep).visible q i := by
  unfold GraftVisit.step
  dsimp only
  split_ifs
  · exact h
  · exact h
  · exact h
  all_goals
    intro q i
    rw [← h.write dep.identifier.stripAdvisory .interface q i]
    simp [owed, map_append, sum_append, Nat.add_assoc]

theorem EmittedOnce.visits {v : GraftVisit}
    (h : EmittedOnce declared v.seen fun q i => emissions q i + owed declared v.visible q i)
    (rootKey : PinnedPackageRef) (axes : Visibility) (deps : List ResolvedDependency) :
    EmittedOnce declared (deps.foldl (GraftVisit.step rootKey axes) v).seen fun q i =>
      emissions q i +
        owed declared (deps.foldl (GraftVisit.step rootKey axes) v).visible q i :=
  foldlRecOn (motive := fun v : GraftVisit => EmittedOnce declared v.seen fun q i =>
    emissions q i + owed declared v.visible q i) deps _ h fun _ hv dep _ =>
      hv.visit rootKey axes dep

/-! ### The emission of a graft -/

theorem count_variables_emitDependency {done : Visibility} {id : PinnedPackageRef}
    {data : ObjectData}
    (hknown : ∀ p, ∀ v ∈ declared p, v.value.isSome)
    (hdata : data.metadata.env = declared id.stripAdvisory)
    (h : emitDependency site root axes collect out id done data = .ok out')
    (q : PinnedPackageRef) (i : ℕ) :
    out'.variables.count (q, i) = out.variables.count (q, i) +
      added declared id.stripAdvisory .interface done q i := by
  obtain ⟨integrations, -, h⟩ := bind_eq_ok_iff.1 h
  obtain ⟨vars, hvars, h⟩ := bind_eq_ok_iff.1 h
  have hcount := count_composeVars (fun v hv => hknown id.stripAdvisory v (hdata ▸ hv)) hvars q i
  have hlaunchers : (launcherEntries id data.metadata (site.packageDir id)).filterMap
      ComposedEntry.declared? = [] := by
    unfold launcherEntries
    split_ifs <;> rfl
  rw [← Except.ok.inj h]
  simp [ComposeOutput.variables, filterMap_append, count_append, hlaunchers, hcount, hdata,
    dependencyCrosses_eq, added]

theorem count_variables_emitDependencies
    {deps : List ((PinnedPackageRef × Visibility) × ObjectData)}
    (hknown : ∀ p, ∀ v ∈ declared p, v.value.isSome)
    (hdata : ∀ dep ∈ deps, dep.2.metadata.env = declared dep.1.1.stripAdvisory)
    (h : deps.foldlM (fun out dep =>
      emitDependency site root axes collect out dep.1.1 dep.1.2 dep.2) out = .ok out')
    (q : PinnedPackageRef) (i : ℕ) :
    out'.variables.count (q, i) =
      out.variables.count (q, i) + owed declared (deps.map Prod.fst) q i := by
  induction deps generalizing out with
  | nil =>
    rw [← Except.ok.inj h]
    rfl
  | cons dep deps ih =>
    obtain ⟨next, hnext, h⟩ := bind_eq_ok_iff.1 h
    rw [ih (fun d hd => hdata d (mem_cons_of_mem _ hd)) h,
      count_variables_emitDependency hknown (hdata dep mem_cons_self) hnext, Nat.add_assoc]
    simp [owed, map_cons, sum_cons]

theorem count_variables_emitRoot {done : Visibility}
    (hknown : ∀ p, ∀ v ∈ declared p, v.value.isSome)
    (hroot : root.metadata.env = declared root.identifier.stripAdvisory)
    (h : emitRoot site root axes collect done out = .ok out') (q : PinnedPackageRef) (i : ℕ) :
    out'.variables.count (q, i) = out.variables.count (q, i) +
      added declared root.identifier.stripAdvisory axes done q i := by
  obtain ⟨integrations, -, h⟩ := bind_eq_ok_iff.1 h
  obtain ⟨vars, hvars, h⟩ := bind_eq_ok_iff.1 h
  have hcount := count_composeVars
    (fun v hv => hknown root.identifier.stripAdvisory v (hroot ▸ hv)) hvars q i
  rw [← Except.ok.inj h]
  simp [ComposeOutput.variables, filterMap_append, count_append, hcount, hroot, added]

/-! ### The axes of a graft -/

/-- The axes a graft opens: the interface of every admitted dependency, then its own. -/
def Graft.writes (g : Graft) : List (PinnedPackageRef × Visibility) :=
  let rootKey := g.companion.identifier.stripAdvisory
  ((g.companion.resolved.dependencies.filter fun dep =>
      decide (dep.identifier.stripAdvisory ≠ rootKey) && onAxes dep.visibility g.axes).map
    fun dep => (dep.identifier.stripAdvisory, .interface)) ++ [(rootKey, g.axes)]

theorem seen_visit (rootKey : PinnedPackageRef) (axes : Visibility) (v : GraftVisit)
    (dep : ResolvedDependency) : (v.step rootKey axes dep).seen =
      if dep.identifier.stripAdvisory ≠ rootKey ∧ onAxes dep.visibility axes = true then
        v.seen.write (dep.identifier.stripAdvisory, .interface)
      else v.seen := by
  unfold GraftVisit.step
  by_cases hroot : dep.identifier.stripAdvisory = rootKey
  · simp [hroot]
  by_cases haxes : onAxes dep.visibility axes = true
  swap
  · simp [haxes]
  by_cases hdone : (v.seen.axes dep.identifier.stripAdvisory).hasInterface = true
  swap
  · simp [hroot, haxes, hdone]
  -- an interface that was emitted stays as it is
  cases hseen : v.seen dep.identifier.stripAdvisory with
  | none => simp [Emitted.axes, hseen, Visibility.sealed] at hdone
  | some done =>
    rw [Emitted.axes, hseen, Option.getD_some] at hdone
    have hle : Visibility.interface ≤ done :=
      Visibility.le_iff.2 ⟨fun h => absurd h (by decide), fun _ => hdone⟩
    rw [Emitted.write_of_le hseen hle]
    simp [hroot, haxes, Emitted.axes, hseen, hdone]

theorem seen_visits (rootKey : PinnedPackageRef) (axes : Visibility)
    (deps : List ResolvedDependency) (v : GraftVisit) :
    (deps.foldl (GraftVisit.step rootKey axes) v).seen =
      ((deps.filter fun dep => decide (dep.identifier.stripAdvisory ≠ rootKey) &&
          onAxes dep.visibility axes).map fun dep =>
        (dep.identifier.stripAdvisory, Visibility.interface)).foldl Emitted.write v.seen := by
  induction deps generalizing v with
  | nil => rfl
  | cons dep deps ih =>
    rw [foldl_cons, ih, seen_visit, filter_cons]
    by_cases h : dep.identifier.stripAdvisory ≠ rootKey ∧ onAxes dep.visibility axes = true
    · rw [if_pos h, if_pos (by simpa using h)]
      rfl
    · rw [if_neg h, if_neg (by simpa using h)]

/-! ### One graft -/

/-- **One graft** keeps the invariant and opens its axes. -/
theorem composeGraft_spec {g : Graft} {emitted' : Emitted}
    (hknown : ∀ p, ∀ v ∈ declared p, v.value.isSome) (hg : g.Faithful declared)
    (h : composeGraft g.site g.companion g.axes g.collectIntegrations emitted =
      .ok (out, emitted')) :
    emitted' = g.writes.foldl Emitted.write emitted ∧
      ∀ emissions, EmittedOnce declared emitted emissions →
        EmittedOnce declared emitted' fun q i => emissions q i + out.variables.count (q, i) := by
  obtain ⟨_, -, h⟩ := bind_eq_ok_iff.1 h
  obtain ⟨loaded, hloaded, h⟩ := bind_eq_ok_iff.1 h
  obtain ⟨deps, hdeps, h⟩ := bind_eq_ok_iff.1 h
  obtain ⟨final, hfinal, h⟩ := bind_eq_ok_iff.1 h
  obtain ⟨rfl, rfl⟩ := Prod.mk.inj (Except.ok.inj h)
  refine ⟨?_, fun emissions hemitted => ?_⟩
  · rw [seen_visits, Graft.writes, foldl_append]
    rfl
  · have hforall := forall₂_of_mapM_eq_ok hloaded
    have hvisits := EmittedOnce.visits (v := ⟨emitted, [], []⟩) hemitted
      g.companion.identifier.stripAdvisory g.axes g.companion.resolved.dependencies
    generalize g.companion.resolved.dependencies.foldl
      (GraftVisit.step g.companion.identifier.stripAdvisory g.axes) ⟨emitted, [], []⟩ = visit at *
    have hdata : ∀ dep ∈ visit.visible.zip loaded,
        dep.2.metadata.env = declared dep.1.1.stripAdvisory := fun dep hdep =>
      hg.load dep.1.1 dep.2 (forall₂_iff_zip.1 hforall |>.2 hdep)
    have hzip : (visit.visible.zip loaded).map Prod.fst = visit.visible :=
      map_fst_zip (List.Forall₂.length_eq hforall).le
    intro q i
    dsimp only
    rw [← hvisits.write g.companion.identifier.stripAdvisory g.axes q i,
      count_variables_emitRoot hknown hg.companion hfinal,
      count_variables_emitDependencies hknown hdata hdeps, hzip]
    simp [ComposeOutput.variables, filterMap_nil, count_nil, Nat.add_assoc]

/-! ### Sequences of grafts -/

theorem EmittedOnce.run (hknown : ∀ p, ∀ v ∈ declared p, v.value.isSome)
    (hgrafts : ∀ g ∈ grafts, g.Faithful declared) (h : EmittedOnce declared emitted emissions) :
    EmittedOnce declared (runCompanions grafts emitted).2 fun q i =>
      emissions q i + (runCompanions grafts emitted).1.count (q, i) := by
  induction grafts generalizing emitted emissions with
  | nil => exact h
  | cons g grafts ih =>
    have hrest : ∀ g' ∈ grafts, g'.Faithful declared := fun g' hg' =>
      hgrafts g' (mem_cons_of_mem _ hg')
    rw [runCompanions, composeCompanion]
    cases hgraft : composeGraft g.site g.companion g.axes g.collectIntegrations emitted with
    | error e => exact ih hrest h
    | ok result =>
      have hnext := (composeGraft_spec hknown (hgrafts g mem_cons_self) hgraft).2 _ h
      intro q i
      have := ih hrest hnext q i
      simp only [count_append]
      rw [← this]
      exact (Nat.add_assoc _ _ _).symm

theorem run_eq_of_allSucceed
    (hknown : ∀ p, ∀ v ∈ declared p, v.value.isSome)
    (hgrafts : ∀ g ∈ grafts, g.Faithful declared) (h : AllSucceed grafts emitted) :
    (runCompanions grafts emitted).2 =
      (grafts.flatMap Graft.writes).foldl Emitted.write emitted := by
  induction grafts generalizing emitted with
  | nil => rfl
  | cons g grafts ih =>
    obtain ⟨⟨out, hout⟩, hrest⟩ := h
    rw [runCompanions]
    rw [composeCompanion] at hout hrest ⊢
    cases hgraft : composeGraft g.site g.companion g.axes g.collectIntegrations emitted with
    | error e => simp [hgraft] at hout
    | ok result =>
      rw [hgraft] at hrest
      have hattempt := (composeGraft_spec hknown (hgrafts g mem_cons_self) hgraft).1
      rw [flatMap_cons, foldl_append, ← hattempt]
      exact ih (fun g' hg' => hgrafts g' (mem_cons_of_mem _ hg')) hrest

end Grafts

/-- **Companion grafts emit each variable exactly once.** Let the map say what has been emitted so
far, with `before` the emitted variables.  After every sequence of grafts, of any companions on any
axes and with any of the calls failing, the map still says what has been emitted, and no variable of
a package has been emitted twice.  If every call succeeds, the map and the emitted variables do not
depend on the order of the calls. -/
theorem companions_emit_once {declared : PinnedPackageRef → List EnvVar}
    (hknown : ∀ p, ∀ v ∈ declared p, v.value.isSome) {grafts : List Graft}
    (hgrafts : ∀ g ∈ grafts, g.Faithful declared) {emitted : Emitted}
    {before : List (PinnedPackageRef × ℕ)}
    (hbefore : EmittedOnce declared emitted fun p i => before.count (p, i)) :
    EmittedOnce declared (runCompanions grafts emitted).2
        (fun p i => (before ++ (runCompanions grafts emitted).1).count (p, i)) ∧
      (before ++ (runCompanions grafts emitted).1).Nodup ∧
      ∀ grafts' : List Graft, grafts'.Perm grafts → AllSucceed grafts emitted →
        AllSucceed grafts' emitted →
          (runCompanions grafts' emitted).2 = (runCompanions grafts emitted).2 ∧
          ∀ x, x ∈ (runCompanions grafts' emitted).1 ↔ x ∈ (runCompanions grafts emitted).1 := by
  have hafter := EmittedOnce.run hknown hgrafts hbefore
  have hrun : EmittedOnce declared (runCompanions grafts emitted).2
      (fun p i => (before ++ (runCompanions grafts emitted).1).count (p, i)) := fun p i => by
    dsimp only
    rw [count_append]
    exact hafter p i
  refine ⟨hrun, nodup_iff_count_le_one.2 fun ⟨p, i⟩ => ?_, fun grafts' hperm hall hall' => ?_⟩
  · refine (hrun p i).le.trans ?_
    rw [share]
    cases (declared p)[i]? with
    | none => exact Nat.zero_le 1
    | some v =>
      rw [Option.elim_some]
      split_ifs <;> omega
  · have hgrafts' : ∀ g ∈ grafts', g.Faithful declared := fun g hg => hgrafts g (hperm.mem_iff.1 hg)
    have hmap : (runCompanions grafts' emitted).2 = (runCompanions grafts emitted).2 := by
      rw [run_eq_of_allSucceed hknown hgrafts' hall', run_eq_of_allSucceed hknown hgrafts hall]
      exact (hperm.flatMap_right Graft.writes).foldl_eq emitted
    refine ⟨hmap, fun ⟨p, i⟩ => ?_⟩
    -- both runs complete the same count to the same map
    have hcount : (runCompanions grafts' emitted).1.count (p, i) =
        (runCompanions grafts emitted).1.count (p, i) := by
      have hthis := hafter p i
      have hother := EmittedOnce.run hknown hgrafts' hbefore p i
      rw [hmap] at hother
      dsimp only at hthis hother
      omega
    rw [← count_pos_iff, ← count_pos_iff, hcount]

/-- A companion that sets one variable for everybody and depends on nothing. -/
def proxyCompanion : InstallInfo where
  identifier := ⟨⟨"ocx.sh", "patches/proxy", some "1", some ⟨.sha256, "aa"⟩⟩, rfl⟩
  metadata := ⟨[⟨"PROXY", .constant "on", .public⟩], [], [], none, []⟩
  resolved := ⟨[]⟩
  dir := ⟨"/p/content", "/p/entrypoints"⟩
  deferred := false

def certsRef : PinnedPackageRef := ⟨⟨"ocx.sh", "certs", none, some ⟨.sha256, "bb"⟩⟩, rfl⟩

/-- The companion with a dependency. -/
def dependentProxy : InstallInfo := { proxyCompanion with resolved := ⟨[⟨certsRef, .public⟩]⟩ }

/-- What the two packages declare. -/
def proxyDeclared (p : PinnedPackageRef) : List EnvVar :=
  if p = dependentProxy.identifier.stripAdvisory then dependentProxy.metadata.env
  else if p = certsRef then [⟨"CERTS", .constant "/etc/certs", .public⟩] else []

/-- A machine with the dependency. -/
def proxySite : Site where
  machine := ⟨.unix, id, fun _ => false, fun _ path => path, fun _ => true⟩
  packageDir _ := ⟨"", ""⟩
  load _ id :=
    if id.stripAdvisory = certsRef then .ok ⟨⟨proxyDeclared certsRef, [], [], none, []⟩, ⟨[]⟩⟩
    else .error (.notFound id)

/-- The companion is grafted on the private axis, then on both. -/
def proxyGrafts : List Graft :=
  [⟨proxySite, dependentProxy, ⟨true, false⟩, true⟩, ⟨proxySite, dependentProxy, .public, true⟩]

/-- Each graft meets the dependency; its variable and that of the companion come once. -/
theorem proxyGrafts_emit_once :
    (runCompanions proxyGrafts fun _ => none).1 =
        [(certsRef, 0), (proxyCompanion.identifier.stripAdvisory, 0)] ∧
      ([] ++ (runCompanions proxyGrafts fun _ => none).1).Nodup := by
  have hknown : ∀ p, ∀ v ∈ proxyDeclared p, v.value.isSome := by
    intro p v hv
    unfold proxyDeclared at hv
    split_ifs at hv
    · rw [mem_singleton.1 hv]
      rfl
    · rw [mem_singleton.1 hv]
      rfl
    · simp at hv
  have hgrafts : ∀ g ∈ proxyGrafts, g.Faithful proxyDeclared := by
    intro g hg
    obtain ⟨hcompanion, hsite⟩ : g.companion = dependentProxy ∧ g.site = proxySite := by
      simp only [proxyGrafts, mem_cons, not_mem_nil, or_false] at hg
      rcases hg with rfl | rfl <;> exact ⟨rfl, rfl⟩
    refine ⟨by rw [hcompanion, proxyDeclared, if_pos rfl], fun id data h => ?_⟩
    rw [hsite, proxySite] at h
    dsimp only at h
    split_ifs at h with hid
    rw [← Except.ok.inj h, hid]
  have hbefore : EmittedOnce proxyDeclared (fun _ => none) fun p i => [].count (p, i) := by
    intro p i
    have hnone : Emitted.axes (fun _ => none) p = .sealed := rfl
    cases h : (proxyDeclared p)[i]? <;> simp [share, h, hnone]
  exact ⟨by decide +kernel, (companions_emit_once hknown hgrafts hbefore).2.1⟩

end Ocx
