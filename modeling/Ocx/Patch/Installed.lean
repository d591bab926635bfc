import Ocx.Package.Assertions
import Ocx.Package.Graft

/-!
# Grafting installed companions

A companion that is found or fetched is a package of the object store, as are its dependencies.
Grafting it fails at a package that cannot be loaded or whose values cannot be resolved.  What was
emitted before is not emitted again, and is not checked again either.  Since the store does not
change, this makes no difference: whether a companion can be grafted does not depend on the
companions that were grafted before it.
-/

namespace Ocx

open List

/-- The packages on the machine, by their identities. -/
structure ObjectStore where
  machine : Machine
  packageDir : PinnedPackageRef → PackageDirs
  /-- The metadata and the resolution of a package. -/
  objectData : PinnedPackageRef → Except ComposeError ObjectData

namespace ObjectStore

/-- The store as a composition sees it. -/
def site (store : ObjectStore) : Site :=
  ⟨store.machine, fun id => store.packageDir id.stripAdvisory,
    fun _ id => store.objectData id.stripAdvisory⟩

variable (store : ObjectStore)

def contexts (data : ObjectData) : Std.ExtTreeMap String DependencyContext :=
  buildDepContextMap store.site data.metadata data.resolved

def VarsEmit (k : PinnedPackageRef) (crosses : Visibility → Bool) : Prop :=
  ∃ data, store.objectData k = .ok data ∧ Emits data.metadata
    (envResolver store.site false (store.packageDir k).content (store.contexts data)) crosses

/-- The integrations of a package can be resolved, if they are collected. -/
def IntegrationsResolve (collect : Bool) (k : PinnedPackageRef) : Prop :=
  ∃ data, store.objectData k = .ok data ∧ ∃ resolved, composeIntegrations collect
    (integrationResolver store.machine (store.packageDir k).content (store.contexts data))
    data.metadata = .ok resolved

variable {store} {k : PinnedPackageRef}

theorem VarsEmit.of_subset {c c' c'' : Visibility → Bool} (h : store.VarsEmit k c)
    (h' : store.VarsEmit k c') (hsub : ∀ v, c'' v = true → c v = true ∨ c' v = true) :
    store.VarsEmit k c'' := by
  obtain ⟨data, hdata, h⟩ := h
  obtain ⟨data', hdata', h'⟩ := h'
  obtain rfl : data = data' := Except.ok.inj (hdata.symm.trans hdata')
  exact ⟨data, hdata, h.of_subset h' hsub⟩

theorem IntegrationsResolve.of_le {collect collect' : Bool}
    (h : store.IntegrationsResolve collect k)
    (hle : collect' = true → collect = true) : store.IntegrationsResolve collect' k := by
  obtain ⟨data, hdata, h⟩ := h
  refine ⟨data, hdata, ?_⟩
  cases hc : collect' with
  | false => exact ⟨[], rfl⟩
  | true => rwa [hle hc] at h

end ObjectStore

structure Installed (store : ObjectStore) where
  info : InstallInfo
  /-- It is what the store has under its identity. -/
  loaded : store.objectData info.identifier.stripAdvisory = .ok ⟨info.metadata, info.resolved⟩
  /-- It lies in its directory. -/
  dir : info.dir = store.packageDir info.identifier.stripAdvisory
  /-- Its directory exists. -/
  materialized : info.deferred = false

/-! ### When a graft succeeds -/

theorem composeVars_succeeds_iff (package : PinnedPackageRef) {b : Bundle} {r : EnvResolver}
    {crosses : Visibility → Bool} :
    (∃ entries, composeVars package b r crosses = .ok entries) ↔ Emits b r crosses := by
  constructor
  · rintro ⟨entries, h⟩
    obtain ⟨emitted, hemitted, -⟩ := bind_eq_ok_iff.1 h
    exact ⟨emitted, mapError_eq_ok_iff.1 hemitted⟩
  · rintro ⟨emitted, h⟩
    exact ⟨_, bind_eq_ok_iff.2 ⟨emitted, mapError_eq_ok_iff.2 h, rfl⟩⟩

section Graft

variable {store : ObjectStore} {axes done : Visibility} {collect : Bool}

theorem emitDependency_succeeds_iff {root : InstallInfo} (hroot : root.deferred = false)
    {id : PinnedPackageRef} {data : ObjectData}
    (hdata : store.objectData id.stripAdvisory = .ok data)
    (out : ComposeOutput) :
    (∃ out', emitDependency store.site root axes collect out id done data = .ok out') ↔
      store.IntegrationsResolve collect id.stripAdvisory ∧
        store.VarsEmit id.stripAdvisory (crossesAnew · .interface done) := by
  have hcrosses : (fun v => dependencyCrosses v axes done) = (crossesAnew · .interface done) :=
    funext fun v => dependencyCrosses_eq v axes done
  constructor
  · rintro ⟨out', h⟩
    obtain ⟨integrations, hintegrations, h⟩ := bind_eq_ok_iff.1 h
    obtain ⟨vars, hvars, -⟩ := bind_eq_ok_iff.1 h
    rw [hroot, hcrosses] at hvars
    exact ⟨⟨data, hdata, integrations, hintegrations⟩,
      ⟨data, hdata, (composeVars_succeeds_iff _).1 ⟨vars, hvars⟩⟩⟩
  · rintro ⟨⟨data', hdata', integrations, hintegrations⟩, data'', hdata'', hemits⟩
    obtain rfl : data = data' := Except.ok.inj (hdata.symm.trans hdata')
    obtain rfl : data = data'' := Except.ok.inj (hdata.symm.trans hdata'')
    obtain ⟨vars, hvars⟩ := (composeVars_succeeds_iff id).2 hemits
    refine ⟨_, bind_eq_ok_iff.2 ⟨integrations, hintegrations, bind_eq_ok_iff.2 ⟨vars, ?_, rfl⟩⟩⟩
    rw [hroot, hcrosses]
    exact hvars

theorem emitRoot_succeeds_iff (c : Installed store) (out : ComposeOutput) :
    (∃ out', emitRoot store.site c.info axes collect done out = .ok out') ↔
      store.IntegrationsResolve (collect && !done.hasInterface) c.info.identifier.stripAdvisory ∧
        store.VarsEmit c.info.identifier.stripAdvisory (crossesAnew · axes done) := by
  constructor
  · rintro ⟨out', h⟩
    obtain ⟨integrations, hintegrations, h⟩ := bind_eq_ok_iff.1 h
    obtain ⟨vars, hvars, -⟩ := bind_eq_ok_iff.1 h
    rw [c.dir] at hintegrations
    rw [c.materialized, c.dir] at hvars
    exact ⟨⟨_, c.loaded, integrations, hintegrations⟩,
      ⟨_, c.loaded, (composeVars_succeeds_iff _).1 ⟨vars, hvars⟩⟩⟩
  · rintro ⟨⟨data, hdata, integrations, hintegrations⟩, data', hdata', hemits⟩
    obtain rfl := Except.ok.inj (c.loaded.symm.trans hdata)
    obtain rfl := Except.ok.inj (c.loaded.symm.trans hdata')
    obtain ⟨vars, hvars⟩ := (composeVars_succeeds_iff c.info.identifier).2 hemits
    refine ⟨_, bind_eq_ok_iff.2 ⟨integrations, ?_, bind_eq_ok_iff.2 ⟨vars, ?_, rfl⟩⟩⟩
    · rw [c.dir]
      exact hintegrations
    · rw [c.materialized, c.dir]
      exact hvars

end Graft

structure Pending (deps : List ResolvedDependency) (rootKey : PinnedPackageRef) (axes : Visibility)
    (emitted : Emitted) (k : PinnedPackageRef) : Prop where
  ne_root : k ≠ rootKey
  admitted : ∃ dep ∈ deps, dep.identifier.stripAdvisory = k ∧ onAxes dep.visibility axes = true
  fresh : (emitted.axes k).hasInterface = false

variable {k : PinnedPackageRef}

section Visit

variable {rootKey : PinnedPackageRef} {axes : Visibility} {emitted : Emitted}
  {deps : List ResolvedDependency} {dep : ResolvedDependency}

theorem Pending.cons (h : Pending deps rootKey axes emitted k) :
    Pending (dep :: deps) rootKey axes emitted k := by
  obtain ⟨d, hd, hadmitted⟩ := h.admitted
  exact ⟨h.ne_root, ⟨d, mem_cons_of_mem _ hd, hadmitted⟩, h.fresh⟩

theorem Pending.of_cons (h : Pending (dep :: deps) rootKey axes emitted k) :
    (k = dep.identifier.stripAdvisory ∧ onAxes dep.visibility axes = true) ∨
      Pending deps rootKey axes emitted k := by
  obtain ⟨d, hd, hkey, hadmitted⟩ := h.admitted
  rcases mem_cons.1 hd with rfl | hd
  · exact .inl ⟨hkey.symm, hadmitted⟩
  · exact .inr ⟨h.ne_root, ⟨d, hd, hkey, hadmitted⟩, h.fresh⟩

theorem pending_write_iff {key : PinnedPackageRef} :
    Pending deps rootKey axes (emitted.write (key, .interface)) k ↔
      k ≠ key ∧ Pending deps rootKey axes emitted k := by
  by_cases hk : k = key
  · have hopen : ((emitted.write (key, .interface)).axes k).hasInterface = true := by
      rw [Emitted.axes_write, if_pos hk]
      simp [Visibility.merge, Visibility.interface]
    exact ⟨fun h => absurd h.fresh (by simp [hopen]), fun h => absurd hk h.1⟩
  · have haxes : (emitted.write (key, .interface)).axes k = emitted.axes k := by
      rw [Emitted.axes_write, if_neg hk]
    exact ⟨fun h => ⟨hk, h.ne_root, h.admitted, haxes ▸ h.fresh⟩,
      fun h => ⟨h.2.ne_root, h.2.admitted, haxes.symm ▸ h.2.fresh⟩⟩

theorem step_cases (rootKey : PinnedPackageRef) (axes : Visibility) (v : GraftVisit)
    (dep : ResolvedDependency) :
    ((dep.identifier.stripAdvisory ≠ rootKey ∧ onAxes dep.visibility axes = true ∧
        (v.seen.axes dep.identifier.stripAdvisory).hasInterface = false) ∧
      (v.step rootKey axes dep).seen = v.seen.write (dep.identifier.stripAdvisory, .interface) ∧
      (v.step rootKey axes dep).visible =
        v.visible ++ [(dep.identifier, v.seen.axes dep.identifier.stripAdvisory)]) ∨
    (¬ (dep.identifier.stripAdvisory ≠ rootKey ∧ onAxes dep.visibility axes = true ∧
        (v.seen.axes dep.identifier.stripAdvisory).hasInterface = false) ∧
      v.step rootKey axes dep = v) := by
  by_cases hroot : dep.identifier.stripAdvisory = rootKey
  · exact .inr ⟨fun h => h.1 hroot, by simp [GraftVisit.step, hroot]⟩
  by_cases haxes : onAxes dep.visibility axes = true
  swap
  · exact .inr ⟨fun h => haxes h.2.1, by simp [GraftVisit.step, haxes]⟩
  by_cases hdone : (v.seen.axes dep.identifier.stripAdvisory).hasInterface = true
  · exact .inr ⟨fun h => by simp [hdone] at h, by simp [GraftVisit.step, hroot, haxes, hdone]⟩
  · have hfresh := Bool.eq_false_iff.2 hdone
    exact .inl ⟨⟨hroot, haxes, hfresh⟩, by simp [GraftVisit.step, hroot, haxes, hfresh],
      by simp [GraftVisit.step, hroot, haxes, hfresh]⟩

theorem pending_of_skipped {v : GraftVisit}
    (hskip : ¬ (dep.identifier.stripAdvisory ≠ rootKey ∧ onAxes dep.visibility axes = true ∧
      (v.seen.axes dep.identifier.stripAdvisory).hasInterface = false)) (k : PinnedPackageRef) :
    Pending (dep :: deps) rootKey axes v.seen k ↔ Pending deps rootKey axes v.seen k := by
  refine ⟨fun hk => ?_, Pending.cons⟩
  rcases hk.of_cons with ⟨rfl, haxes⟩ | hk'
  · exact absurd ⟨hk.ne_root, haxes, hk.fresh⟩ hskip
  · exact hk'

theorem axes_write_of_ne {key : PinnedPackageRef} (hk : k ≠ key) :
    (emitted.write (key, axes)).axes k = emitted.axes k := by
  rw [Emitted.axes_write, if_neg hk]

theorem forall_visible_iff (rootKey : PinnedPackageRef) (axes : Visibility)
    (Q : PinnedPackageRef → Visibility → Prop) (deps : List ResolvedDependency) (v : GraftVisit) :
    (∀ x ∈ (deps.foldl (GraftVisit.step rootKey axes) v).visible, Q x.1.stripAdvisory x.2) ↔
      (∀ x ∈ v.visible, Q x.1.stripAdvisory x.2) ∧
        ∀ k, Pending deps rootKey axes v.seen k → Q k (v.seen.axes k) := by
  induction deps generalizing v with
  | nil =>
    refine ⟨fun h => ⟨h, fun k hk => ?_⟩, fun h => h.1⟩
    obtain ⟨d, hd, -⟩ := hk.admitted
    simp at hd
  | cons dep deps ih =>
    rw [foldl_cons, ih]
    rcases step_cases rootKey axes v dep with
      ⟨⟨hroot, haxes, hfresh⟩, hseen, hvisible⟩ | ⟨hskip, hv⟩
    · rw [hvisible, hseen, forall_mem_append, forall_mem_singleton]
      constructor
      · rintro ⟨⟨hold, hnew⟩, hrest⟩
        refine ⟨hold, fun k hk => ?_⟩
        by_cases hkey : k = dep.identifier.stripAdvisory
        · exact hkey ▸ hnew
        · rcases hk.of_cons with ⟨hkey', -⟩ | hk
          · exact absurd hkey' hkey
          · exact axes_write_of_ne hkey ▸ hrest k (pending_write_iff.2 ⟨hkey, hk⟩)
      · rintro ⟨hold, hrest⟩
        refine ⟨⟨hold, hrest _ ⟨hroot, ⟨dep, mem_cons_self, rfl, haxes⟩, hfresh⟩⟩, ?_⟩
        intro k hk
        obtain ⟨hkey, hk⟩ := pending_write_iff.1 hk
        exact (axes_write_of_ne hkey).symm ▸ hrest k hk.cons
    · simp [hv, pending_of_skipped hskip]

theorem axes_root_visits (rootKey : PinnedPackageRef) (axes : Visibility)
    (deps : List ResolvedDependency) (v : GraftVisit) :
    (deps.foldl (GraftVisit.step rootKey axes) v).seen.axes rootKey = v.seen.axes rootKey := by
  induction deps generalizing v with
  | nil => rfl
  | cons dep deps ih =>
    rw [foldl_cons, ih, seen_visit]
    split_ifs with hvisit
    · rw [Emitted.axes_write, if_neg hvisit.1.symm]
    · rfl

end Visit

section Graft

variable {store : ObjectStore} {axes : Visibility} {collect : Bool}

def ObjectStore.Emittable (store : ObjectStore) (collect : Bool) (k : PinnedPackageRef)
    (axes done : Visibility) : Prop :=
  store.IntegrationsResolve (collect && !done.hasInterface) k ∧
    store.VarsEmit k (crossesAnew · axes done)

theorem emitDependencies_succeed_iff {root : InstallInfo} (hroot : root.deferred = false)
    {visible : List (PinnedPackageRef × Visibility)} {loaded : List ObjectData}
    (hloaded : List.Forall₂ (fun x data => store.objectData x.1.stripAdvisory = .ok data) visible
      loaded) (out : ComposeOutput) :
    (∃ out', (visible.zip loaded).foldlM (fun out dep =>
        emitDependency store.site root axes collect out dep.1.1 dep.1.2 dep.2) out = .ok out') ↔
      ∀ x ∈ visible, store.IntegrationsResolve collect x.1.stripAdvisory ∧
        store.VarsEmit x.1.stripAdvisory (crossesAnew · .interface x.2) := by
  induction hloaded generalizing out with
  | nil => exact ⟨fun _ => by simp, fun _ => ⟨out, rfl⟩⟩
  | @cons x data visible loaded hx _ ih =>
    rw [forall_mem_cons, ← emitDependency_succeeds_iff hroot hx out, zip_cons_cons]
    simp only [foldlM_cons, bind_eq_ok_iff]
    constructor
    · rintro ⟨out', next, hnext, hrest⟩
      exact ⟨⟨next, hnext⟩, (ih next).1 ⟨out', hrest⟩⟩
    · rintro ⟨⟨next, hnext⟩, hrest⟩
      obtain ⟨out', hout'⟩ := (ih next).2 hrest
      exact ⟨out', next, hnext, hout'⟩

/-- **When a graft succeeds.** Its closure has no conflict, every dependency that was not emitted on
its interface can be emitted there, and so can the companion on the axes of the graft. -/
theorem composeGraft_succeeds_iff (c : Installed store) (emitted : Emitted) :
    (∃ result, composeGraft store.site c.info axes collect emitted = .ok result) ↔
      checkRepoDigestConflicts c.info axes = .ok () ∧
      (∀ k, Pending c.info.resolved.dependencies c.info.identifier.stripAdvisory axes emitted k →
        store.Emittable collect k .interface (emitted.axes k)) ∧
      store.Emittable collect c.info.identifier.stripAdvisory axes
        (emitted.axes c.info.identifier.stripAdvisory) := by
  have hvisible := forall_visible_iff c.info.identifier.stripAdvisory axes
    (fun k done => store.IntegrationsResolve collect k ∧
      store.VarsEmit k (crossesAnew · .interface done))
    c.info.resolved.dependencies ⟨emitted, [], []⟩
  have hdone := axes_root_visits c.info.identifier.stripAdvisory axes
    c.info.resolved.dependencies ⟨emitted, [], []⟩
  simp only [not_mem_nil, false_implies, implies_true, true_and] at hvisible
  have hpending : (∀ k, Pending c.info.resolved.dependencies c.info.identifier.stripAdvisory axes
        emitted k → store.Emittable collect k .interface (emitted.axes k)) ↔
      ∀ k, Pending c.info.resolved.dependencies c.info.identifier.stripAdvisory axes emitted k →
        store.IntegrationsResolve collect k ∧
          store.VarsEmit k (crossesAnew · .interface (emitted.axes k)) := by
    refine forall_congr' fun k => imp_congr_right fun hk => ?_
    rw [ObjectStore.Emittable, hk.fresh, Bool.not_false, Bool.and_true]
  rw [hpending, ← hvisible, composeGraft]
  simp only [bind_eq_ok_iff]
  generalize c.info.resolved.dependencies.foldl
    (GraftVisit.step c.info.identifier.stripAdvisory axes) ⟨emitted, [], []⟩ = visit at *
  constructor
  · rintro ⟨result, _, hcheck, loaded, hloaded, out, hout, final, hfinal, -⟩
    have hroot := (emitRoot_succeeds_iff c out).1 ⟨final, hfinal⟩
    rw [hdone] at hroot
    exact ⟨hcheck, (emitDependencies_succeed_iff c.materialized (forall₂_of_mapM_eq_ok hloaded) _).1
      ⟨out, hout⟩, hroot⟩
  · rintro ⟨hcheck, hdeps, hroot⟩
    obtain ⟨loaded, hloaded, hall⟩ := exists_mapM_ok (f := fun x : PinnedPackageRef × Visibility =>
      store.objectData x.1.stripAdvisory) (R := fun x data =>
        store.objectData x.1.stripAdvisory = .ok data) fun x hx => by
          obtain ⟨⟨data, hdata, -⟩, -⟩ := hdeps x hx
          exact ⟨data, hdata, hdata⟩
    obtain ⟨out, hout⟩ := (emitDependencies_succeed_iff c.materialized hall
      (⟨[], visit.admitted, [], [], []⟩ : ComposeOutput)).2 hdeps
    rw [← hdone] at hroot
    obtain ⟨final, hfinal⟩ := (emitRoot_succeeds_iff c out).2 hroot
    exact ⟨_, (), hcheck, loaded, hloaded, out, hout, final, hfinal, rfl⟩

/-! ### What was emitted before makes no difference -/

/-- Everything that was emitted since the start could be emitted. -/
structure Steady (store : ObjectStore) (collect : Bool) (start emitted : Emitted) : Prop where
  /-- Nothing that was emitted at the start is lost. -/
  le : ∀ k, start.axes k ≤ emitted.axes k
  /-- The variables on the new axes. -/
  vars : ∀ k, emitted.axes k ≠ start.axes k → store.VarsEmit k fun v =>
    onAxes v (emitted.axes k) && !onAxes v (start.axes k)
  /-- The integrations of a package that is newly emitted on its interface. -/
  integrations : ∀ k, (emitted.axes k).hasInterface = true → (start.axes k).hasInterface = false →
    store.IntegrationsResolve collect k

theorem Steady.refl (store : ObjectStore) (collect : Bool) (start : Emitted) :
    Steady store collect start start :=
  ⟨fun _ => le_rfl, fun _ h => absurd rfl h, fun _ h h' => by simp [h] at h'⟩

theorem onAxes_of_le {v a b : Visibility} (hle : a ≤ b) (h : onAxes v a = true) :
    onAxes v b = true := by
  have hmerge : a.merge b = b := sup_eq_right.2 hle
  rw [← hmerge, onAxes_merge, h, Bool.true_or]

variable {start emitted : Emitted}

theorem Steady.emittable_iff (h : Steady store collect start emitted) (k : PinnedPackageRef) :
    store.Emittable collect k axes (emitted.axes k) ↔
      store.Emittable collect k axes (start.axes k) := by
  constructor
  · rintro ⟨hintegrations, hvars⟩
    constructor
    · cases hstart : (start.axes k).hasInterface with
      | true => exact hintegrations.of_le (by simp)
      | false =>
        cases hemitted : (emitted.axes k).hasInterface with
        | false => simpa [hemitted] using hintegrations
        | true => simpa using h.integrations k hemitted hstart
    · by_cases heq : emitted.axes k = start.axes k
      · rwa [← heq]
      · refine hvars.of_subset (h.vars k heq) fun v hv => ?_
        simp only [crossesAnew, Bool.and_eq_true, Bool.not_eq_true'] at hv ⊢
        cases honAxes : onAxes v (emitted.axes k) with
        | false => exact .inl ⟨hv.1, rfl⟩
        | true => exact .inr ⟨rfl, hv.2⟩
  · rintro ⟨hintegrations, hvars⟩
    constructor
    · refine hintegrations.of_le fun hcollect => ?_
      simp only [Bool.and_eq_true, Bool.not_eq_true'] at hcollect ⊢
      refine ⟨hcollect.1, Bool.eq_false_iff.2 fun hstart => ?_⟩
      rw [(Visibility.le_iff.1 (h.le k)).2 hstart] at hcollect
      exact Bool.noConfusion hcollect.2
    · refine hvars.of_subset hvars fun v hv => .inl ?_
      simp only [crossesAnew, Bool.and_eq_true, Bool.not_eq_true'] at hv ⊢
      refine ⟨hv.1, Bool.eq_false_iff.2 fun hstart => ?_⟩
      rw [onAxes_of_le (h.le k) hstart] at hv
      exact Bool.noConfusion hv.2

theorem Steady.write (h : Steady store collect start emitted)
    (hk : store.Emittable collect k axes (emitted.axes k)) :
    Steady store collect start (emitted.write (k, axes)) := by
  have hopen : (emitted.write (k, axes)).axes k = (emitted.axes k).merge axes := by
    rw [Emitted.axes_write, if_pos rfl]
  refine ⟨fun k' => ?_, fun k' hne => ?_, fun k' hinterface hstart => ?_⟩ <;>
    by_cases hk' : k' = k
  · rw [hk', hopen]
    exact (h.le k).trans le_sup_left
  · rw [axes_write_of_ne hk']
    exact h.le k'
  · subst hk'
    rw [hopen] at hne ⊢
    by_cases heq : emitted.axes k' = start.axes k'
    · refine hk.2.of_subset hk.2 fun v hv => .inl ?_
      rw [onAxes_merge, ← heq] at hv
      simp only [crossesAnew, Bool.and_eq_true, Bool.or_eq_true, Bool.not_eq_true'] at hv ⊢
      exact ⟨hv.1.resolve_left (by simp [hv.2]), hv.2⟩
    · refine hk.2.of_subset (h.vars k' heq) fun v hv => ?_
      rw [onAxes_merge] at hv
      simp only [crossesAnew, Bool.and_eq_true, Bool.or_eq_true, Bool.not_eq_true'] at hv ⊢
      cases honAxes : onAxes v (emitted.axes k') with
      | true => exact .inr ⟨rfl, hv.2⟩
      | false => exact .inl ⟨hv.1.resolve_left (by simp [honAxes]), rfl⟩
  · rw [axes_write_of_ne hk'] at hne ⊢
    exact h.vars k' hne
  · subst hk'
    cases hemitted : (emitted.axes k').hasInterface with
    | true => exact h.integrations k' hemitted hstart
    | false => simpa [hemitted] using hk.1
  · rw [axes_write_of_ne hk'] at hinterface
    exact h.integrations k' hinterface hstart

theorem Steady.visits {rootKey : PinnedPackageRef} (deps : List ResolvedDependency)
    (v : GraftVisit) (h : Steady store collect start v.seen)
    (hpending : ∀ k, Pending deps rootKey axes v.seen k →
      store.Emittable collect k .interface (v.seen.axes k)) :
    Steady store collect start (deps.foldl (GraftVisit.step rootKey axes) v).seen := by
  induction deps generalizing v with
  | nil => exact h
  | cons dep deps ih =>
    rw [foldl_cons]
    rcases step_cases rootKey axes v dep with ⟨⟨hroot, haxes, hfresh⟩, hseen, -⟩ | ⟨hskip, hv⟩
    · refine ih _ ?_ fun k hk => ?_
      · rw [hseen]
        exact h.write (hpending _ ⟨hroot, ⟨dep, mem_cons_self, rfl, haxes⟩, hfresh⟩)
      · rw [hseen] at hk ⊢
        obtain ⟨hkey, hk⟩ := pending_write_iff.1 hk
        rw [axes_write_of_ne hkey]
        exact hpending k hk.cons
    · rw [hv]
      exact ih v h fun k hk => hpending k hk.cons

/-- **Order of grafts.** A companion can be grafted later exactly if it can be at the start. -/
theorem Steady.succeeds_iff (h : Steady store collect start emitted) (c : Installed store) :
    (∃ result, composeGraft store.site c.info axes collect emitted = .ok result) ↔
      ∃ result, composeGraft store.site c.info axes collect start = .ok result := by
  rw [composeGraft_succeeds_iff, composeGraft_succeeds_iff]
  refine and_congr_right fun _ => and_congr ?_ (h.emittable_iff _)
  constructor
  · intro hpending k hk
    -- a dependency that was emitted in between could be emitted
    by_cases hfresh : (emitted.axes k).hasInterface = false
    · exact (h.emittable_iff k).1 (hpending k ⟨hk.ne_root, hk.admitted, hfresh⟩)
    · have hopen : (emitted.axes k).hasInterface = true := by simpa using hfresh
      have hne : emitted.axes k ≠ start.axes k := fun heq => by simp [heq, hk.fresh] at hopen
      refine ⟨(h.integrations k hopen hk.fresh).of_le fun hc => (Bool.and_eq_true _ _ ▸ hc).1, ?_⟩
      refine (h.vars k hne).of_subset (h.vars k hne) fun v hv => .inl ?_
      simp only [crossesAnew, onAxes, Visibility.interface, Bool.and_false, Bool.and_true,
        Bool.false_or, Bool.and_eq_true, Bool.or_eq_true, Bool.not_eq_true'] at hv ⊢
      exact ⟨.inr ⟨hv.1, hopen⟩, hv.2⟩
  · intro hpending k hk
    refine (h.emittable_iff k).2 (hpending k ⟨hk.ne_root, hk.admitted, ?_⟩)
    refine Bool.eq_false_iff.2 fun hstart => ?_
    exact absurd ((Visibility.le_iff.1 (h.le k)).2 hstart) (by simp [hk.fresh])

/-- A graft keeps everything that was emitted. -/
theorem Steady.graft (h : Steady store collect start emitted) {c : Installed store}
    {out : ComposeOutput} {emitted' : Emitted}
    (hgraft : composeGraft store.site c.info axes collect emitted = .ok (out, emitted')) :
    Steady store collect start emitted' := by
  obtain ⟨-, hpending, hroot⟩ := (composeGraft_succeeds_iff c emitted).1 ⟨_, hgraft⟩
  obtain ⟨_, -, hgraft⟩ := bind_eq_ok_iff.1 hgraft
  obtain ⟨_, -, hgraft⟩ := bind_eq_ok_iff.1 hgraft
  obtain ⟨_, -, hgraft⟩ := bind_eq_ok_iff.1 hgraft
  obtain ⟨_, -, hgraft⟩ := bind_eq_ok_iff.1 hgraft
  obtain ⟨-, rfl⟩ := Prod.mk.inj (Except.ok.inj hgraft)
  refine (Steady.visits _ _ h hpending).write ?_
  rw [axes_root_visits]
  exact hroot

end Graft

end Ocx
