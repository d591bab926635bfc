import Ocx.Patch.Overlay
import Ocx.Util.Cached

/-!
# The order of the bases

Whether the companions of a composition can be composed is a question about the companions that some
base requires.  The composition answers it with a cache: the first base that matches a companion
decides what becomes of it.  An optional companion is not fetched, so the first base also decides
whether a companion that is not installed is fetched at all.

The run refines a run over cached verdicts (`cachedStep`): the verdict on a companion is that it is
had and can be grafted onto what the bases emitted.
-/

namespace Ocx

open List Option Function

variable {companion : PackageRef} {base : AdmittedBase} {entry : CompanionEntry}

namespace OverlayEnv

variable {Fault : Type} (env : OverlayEnv Fault)

/-! ### What the composition is for -/

/-- A companion can be had: it is installed, or it is not and the fetch brings it. -/
def Provides (companion : PackageRef) (info : Installed env.store) : Prop :=
  (∃ pin, env.lookup companion = .ok (pin, some info)) ∨
    ∃ pin, env.lookup companion = .ok (pin, none) ∧ env.fetchCompanion companion pin = .ok info

/-- A companion can be grafted onto what the bases emitted. -/
def Composes (bases : List AdmittedBase) (companion : PackageRef) (info : Installed env.store) :
    Prop :=
  ∃ out, (composeCompanion (env.graft (env.companionAxes bases companion) info)
    (env.baseEmitted bases)).1 = .ok out

/-- Some base requires a companion that cannot be had, or that does not compose. -/
def RequiredFails (bases : List AdmittedBase) : Prop :=
  ∃ base ∈ bases, ∃ entry ∈ base.companions, entry.required = true ∧
    ((∀ info, ¬ env.Provides entry.identifier info) ∨
      ∃ info, env.Provides entry.identifier info ∧ ¬ env.Composes bases entry.identifier info)

def Fails (bases : List AdmittedBase) : Prop := ∃ e, env.buildSitePatchSet bases = .error e

/-- The composition fails exactly if a required companion does, whatever the order of the bases. -/
structure OrderFree (bases : List AdmittedBase) : Prop where
  perm : ∀ bases', bases'.Perm bases → (env.Fails bases' ↔ env.Fails bases)
  required : env.Fails bases ↔ env.RequiredFails bases

/-- A companion that is not installed and that the fetch brings. -/
def FetchOnly (companion : PackageRef) : Prop :=
  ∃ pin info, env.lookup companion = .ok (pin, none) ∧ env.fetchCompanion companion pin = .ok info

/-- A companion that would be fetched is required by all bases that match it, or by none. -/
def UniformlyFetched (bases : List AdmittedBase) : Prop :=
  ∀ base ∈ bases, ∀ entry ∈ base.companions, ∀ base' ∈ bases, ∀ entry' ∈ base'.companions,
    entry.identifier = entry'.identifier → env.FetchOnly entry.identifier →
      entry.required = entry'.required

def Reached (bases : List AdmittedBase) (companion : PackageRef) (info : Installed env.store) :
    Prop :=
  ∃ base ∈ bases, ∃ entry ∈ base.companions, entry.identifier = companion ∧
    env.obtain companion entry.required = .ok info

/-- The packages that come together: those of the roots, and the companions with their
dependencies. -/
def Surface (bases : List AdmittedBase) : Set PinnedPackageRef :=
  {id | (∃ root ∈ env.packages, id ∈ surfaceClosure root (surfaceAxes env.selfView)) ∨
    ∃ companion info, env.Reached bases companion info ∧
      id ∈ surfaceClosure info.info (env.companionAxes bases companion)}

/-! ### Verdicts -/

def verdict (bases : List AdmittedBase) (companion : PackageRef) (required : Bool) : Bool :=
  match env.obtain companion required with
  | .error _ => false
  | .ok info =>
    (composeCompanion (env.graft (env.companionAxes bases companion) info)
      (env.baseEmitted bases)).1.isOk

variable {env} {bases : List AdmittedBase}

theorem verdict_eq_true_iff {required : Bool} :
    env.verdict bases companion required = true ↔
      ∃ info, env.obtain companion required = .ok info ∧ env.Composes bases companion info := by
  unfold verdict
  cases env.obtain companion required with
  | error failure => simp
  | ok info =>
    cases hout : (composeCompanion (env.graft (env.companionAxes bases companion) info)
        (env.baseEmitted bases)).1 with
    | error e => simp [Composes, hout, Except.isOk, Except.toBool]
    | ok out => simp [Composes, hout, Except.isOk, Except.toBool]

variable {info : Installed env.store} {t : CompanionOverlay × OverlayState}

theorem obtain_true_iff (honline : env.isOffline = false) :
    env.obtain companion true = .ok info ↔ env.Provides companion info := by
  unfold obtain Provides
  cases env.lookup companion with
  | error fault => simp
  | ok found =>
    obtain ⟨pin, _ | installed⟩ := found
    · simp [honline, mapError_eq_ok_iff]
    · simp

theorem obtain_false_iff :
    env.obtain companion false = .ok info ↔ ∃ pin, env.lookup companion = .ok (pin, some info) := by
  unfold obtain
  cases env.lookup companion with
  | error fault => simp
  | ok found =>
    obtain ⟨pin, _ | installed⟩ := found <;> simp

theorem verdict_true_of_false (honline : env.isOffline = false)
    (h : env.verdict bases companion false = true) : env.verdict bases companion true = true := by
  obtain ⟨info, hinfo, hcomposes⟩ := verdict_eq_true_iff.1 h
  refine verdict_eq_true_iff.2 ⟨info, (obtain_true_iff honline).2 (.inl ?_), hcomposes⟩
  exact obtain_false_iff.1 hinfo

/-! ### The run is a run over verdicts -/

def verdicts (cache : PackageRef → Option CompanionOutcome) : PackageRef → Option Bool :=
  fun companion => (cache companion).map fun outcome => decide (outcome = .projected)

theorem verdicts_update (cache : PackageRef → Option CompanionOutcome) (companion : PackageRef)
    (outcome : CompanionOutcome) :
    verdicts (update cache companion (some outcome)) =
      update (verdicts cache) companion (some (decide (outcome = .projected))) := by
  funext c
  by_cases hc : c = companion
  · subst hc
    simp [verdicts]
  · simp [verdicts, hc]

/-- What holds between two companions. -/
structure Consistent (env : OverlayEnv Fault) (bases : List AdmittedBase) (s : OverlayState) :
    Prop where
  /-- The recorded packages are on the surface. -/
  accepted : ∀ id ∈ s.accepted, id ∈ env.Surface bases
  /-- So are the recorded companions. -/
  companions : ∀ id ∈ s.acceptedCompanions, id ∈ env.Surface bases
  /-- What was emitted could be emitted. -/
  steady : Steady env.store (integrationsCross env.selfView) (env.baseEmitted bases) s.emitted

theorem consistent_start : Consistent env bases (env.start bases) where
  accepted id hid := by
    obtain ⟨root, hroot, hid⟩ := mem_flatMap.1 hid
    exact .inl ⟨root, hroot, hid⟩
  companions id hid := by simp [start] at hid
  steady := Steady.refl _ _ _

theorem composeCompanion_eq_ok_iff {g : Graft} {emitted : Emitted} :
    (∃ out, (composeCompanion g emitted).1 = .ok out) ↔
      ∃ result, composeGraft g.site g.companion g.axes g.collectIntegrations emitted =
        .ok result := by
  unfold composeCompanion
  cases composeGraft g.site g.companion g.axes g.collectIntegrations emitted with
  | error e => simp
  | ok result => simp

theorem project_cases (hsurface : OneDigest (env.Surface bases)) {s : OverlayState}
    (hs : Consistent env bases s)
    (hreached : env.Reached bases companion info) :
    (env.Composes bases companion info ∧ ∃ out s', env.project (env.companionAxes bases companion) s
        info = .ok (out, s') ∧ s'.cache = s.cache ∧ Consistent env bases s') ∨
      (¬ env.Composes bases companion info ∧
        ∃ e, env.project (env.companionAxes bases companion) s info = .error e) := by
  set axes := env.companionAxes bases companion with haxes
  have hclosure : ∀ id ∈ surfaceClosure info.info axes, id ∈ env.Surface bases := fun id hid =>
    .inr ⟨companion, info, hreached, hid⟩
  have hdeps : ∀ id ∈ admittedDependencies info.info axes, id ∈ env.Surface bases := fun id hid =>
    hclosure id (mem_cons_of_mem _ hid)
  have hroot : info.info.identifier ∈ env.Surface bases := hclosure _ mem_cons_self
  -- no repository gets a second digest
  have hrefuse : s.accepted.refuse (admittedDependencies info.info axes ++ [info.info.identifier]) =
      .ok () :=
    RepositoryDigests.refuse_of_forall (hsurface.mono (forall_mem_append.2
      ⟨hs.accepted, forall_mem_append.2 ⟨hdeps, by simpa using hroot⟩⟩))
  have hrefuse' : s.acceptedCompanions.refuse (admittedDependencies info.info axes) = .ok () :=
    RepositoryDigests.refuse_of_forall (hsurface.mono (forall_mem_append.2 ⟨hs.companions, hdeps⟩))
  have hcomposes : env.Composes bases companion info ↔
      ∃ result, composeGraft env.store.site info.info axes (integrationsCross env.selfView)
        s.emitted = .ok result := by
    rw [hs.steady.succeeds_iff info]
    exact composeCompanion_eq_ok_iff
  rw [hcomposes, project, hrefuse, hrefuse']
  simp only [graft, composeCompanion]
  cases hgraft : composeGraft env.store.site info.info axes (integrationsCross env.selfView)
      s.emitted with
  | error e => exact .inr ⟨by simp, e, rfl⟩
  | ok result =>
    obtain ⟨out, emitted⟩ := result
    exact .inl ⟨⟨_, rfl⟩, out, _, rfl, rfl, forall_mem_append.2 ⟨hs.accepted, hdeps⟩,
      forall_mem_append.2 ⟨hs.companions, by simpa using hroot⟩, hs.steady.graft hgraft⟩

def request (entry : CompanionEntry) : PackageRef × Bool := (entry.identifier, entry.required)

/-- A run and one over verdicts fail together, or end with the same verdicts. -/
def Follows {α : Type} (env : OverlayEnv Fault) (bases : List AdmittedBase)
    (run : Except (RequiredCompanionFailed Fault) (α × OverlayState))
    (cached : Option (PackageRef → Option Bool)) : Prop :=
  ((∃ e, run = .error e) ∧ cached = none) ∨
    ∃ x s, run = .ok (x, s) ∧ cached = some (verdicts s.cache) ∧ Consistent env bases s

theorem Follows.bind {α α' : Type} {run : Except _ (α × OverlayState)}
    {next : α × OverlayState → Except _ (α' × OverlayState)} {cached : Option _}
    {cachedNext : _ → Option _} (h : Follows env bases run cached)
    (hnext : ∀ x s, Consistent env bases s →
      Follows env bases (next (x, s)) (cachedNext (verdicts s.cache))) :
    Follows env bases (run >>= next) (cached >>= cachedNext) := by
  rcases h with ⟨⟨e, rfl⟩, rfl⟩ | ⟨x, s, rfl, rfl, hs⟩
  · exact .inl ⟨⟨e, rfl⟩, rfl⟩
  · exact hnext x s hs

theorem follows_miss (entry : CompanionEntry) (failure : CompanionFailure Fault)
    (overlay : CompanionOverlay) {s : OverlayState} (hs : Consistent env bases s)
    (hcache : s.cache entry.identifier = none)
    (hverdict : env.verdict bases entry.identifier entry.required = false) :
    Follows env bases (miss entry failure overlay s)
      (cachedStep (env.verdict bases) (verdicts s.cache) (request entry)) := by
  have hnone : verdicts s.cache entry.identifier = none := by simp [verdicts, hcache]
  unfold miss
  cases hrequired : entry.required with
  | true =>
    rw [hrequired] at hverdict
    exact .inl ⟨⟨_, rfl⟩, by simp [cachedStep, request, hnone, hrequired, hverdict]⟩
  | false =>
    rw [hrequired] at hverdict
    refine .inr ⟨_, _, rfl, ?_, hs.accepted, hs.companions, hs.steady⟩
    rw [verdicts_update]
    simp [cachedStep, request, hnone, hrequired, hverdict]

/-- **One companion** is a request to the cache of verdicts. -/
theorem follows_visitCompanion (hsurface : OneDigest (env.Surface bases))
    (hbase : base ∈ bases) (hentry : entry ∈ base.companions) (ht : Consistent env bases t.2) :
    Follows env bases (env.visitCompanion (env.companionAxes bases) t entry)
      (cachedStep (env.verdict bases) (verdicts t.2.cache) (request entry)) := by
  obtain ⟨overlay, s⟩ := t
  unfold visitCompanion
  cases hcache : s.cache entry.identifier with
  | some outcome =>
    have hview : verdicts s.cache entry.identifier = some (decide (outcome = .projected)) := by
      simp [verdicts, hcache]
    cases outcome with
    | projected =>
      refine .inr ⟨overlay, s, rfl, ?_, ht⟩
      simp [cachedStep, request, hview]
    | missing =>
      cases hrequired : entry.required with
      | true => exact .inl ⟨⟨_, rfl⟩, by simp [cachedStep, request, hview, hrequired]⟩
      | false =>
        refine .inr ⟨overlay, s, rfl, ?_, ht⟩
        simp [cachedStep, request, hview, hrequired]
  | none =>
    dsimp only
    cases hobtain : env.obtain entry.identifier entry.required with
    | error failure =>
      exact follows_miss entry failure overlay ht hcache (by simp [verdict, hobtain])
    | ok info =>
      have hreached : env.Reached bases entry.identifier info :=
        ⟨base, hbase, entry, hentry, rfl, hobtain⟩
      dsimp only
      rcases project_cases hsurface ht hreached with
        ⟨hcomposes, out, s', hproject, hsame, hs'⟩ | ⟨hnot, e, hproject⟩
      · have hverdict : env.verdict bases entry.identifier entry.required = true :=
          verdict_eq_true_iff.2 ⟨info, hobtain, hcomposes⟩
        rw [hproject]
        refine .inr ⟨_, _, rfl, ?_, hs'.accepted, hs'.companions, hs'.steady⟩
        rw [verdicts_update, hsame]
        simp [cachedStep, request, verdicts, hcache, hverdict]
      · rw [hproject]
        refine follows_miss entry _ overlay ht hcache (Bool.eq_false_iff.2 fun hverdict => ?_)
        obtain ⟨info', hinfo', hcomposes⟩ := verdict_eq_true_iff.1 hverdict
        obtain rfl : info = info' := Except.ok.inj (hobtain.symm.trans hinfo')
        exact hnot hcomposes

theorem follows_visitCompanions (hsurface : OneDigest (env.Surface bases))
    (hbase : base ∈ bases) (entries : List CompanionEntry)
    (hentries : ∀ entry ∈ entries, entry ∈ base.companions) (ht : Consistent env bases t.2) :
    Follows env bases (entries.foldlM (env.visitCompanion (env.companionAxes bases)) t)
      ((entries.map request).foldlM (cachedStep (env.verdict bases)) (verdicts t.2.cache)) := by
  induction entries generalizing t with
  | nil => exact .inr ⟨t.1, t.2, rfl, rfl, ht⟩
  | cons entry entries ih =>
    rw [forall_mem_cons] at hentries
    exact (follows_visitCompanion hsurface hbase hentries.1 ht).bind fun overlay s hs =>
      ih hentries.2 hs

def requests (bases : List AdmittedBase) : List (PackageRef × Bool) :=
  bases.flatMap fun base => base.companions.map request

theorem requests_filter (bases : List AdmittedBase) :
    requests (bases.filter fun base => !base.companions.isEmpty) = requests bases := by
  unfold requests
  induction bases with
  | nil => rfl
  | cons base rest ih => cases h : base.companions <;> simp [h, ih]

theorem follows_visitBases (hsurface : OneDigest (env.Surface bases)) (rest : List AdmittedBase)
    (hrest : ∀ base ∈ rest, base ∈ bases)
    {t : List (PinnedPackageRef × CompanionOverlay) × OverlayState}
    (ht : Consistent env bases t.2) :
    Follows env bases (rest.foldlM (env.visitBase (env.companionAxes bases)) t)
      ((requests rest).foldlM (cachedStep (env.verdict bases)) (verdicts t.2.cache)) := by
  induction rest generalizing t with
  | nil => exact .inr ⟨t.1, t.2, rfl, rfl, ht⟩
  | cons base rest ih =>
    rw [forall_mem_cons] at hrest
    rw [requests, flatMap_cons, foldlM_append, foldlM_cons, visitBase, LawfulMonad.bind_assoc]
    exact (follows_visitCompanions hsurface hrest.1 base.companions (fun _ h => h)
      (t := (.empty, t.2)) ht).bind fun overlay s hs => ih hrest.2 (t := (_, s)) hs

/-- **The composition fails** exactly if some base requires a companion whose first request found a
bad verdict. -/
theorem fails_iff_requests (hsurface : OneDigest (env.Surface bases)) :
    env.Fails bases ↔ ∃ r ∈ requests bases, r.2 = true ∧
      ((requests bases).find? fun r' => r'.1 = r.1).map (fun r' => env.verdict bases r.1 r'.2) =
        some false := by
  have hcases := follows_visitBases hsurface (bases.filter fun base => !base.companions.isEmpty)
    (fun base hbase => mem_of_mem_filter hbase) (t := ([], env.start bases)) consistent_start
  have hrun := foldlM_cachedStep_eq_none_iff (env.verdict bases)
    (verdicts (env.start bases).cache) (requests bases)
  have hempty : verdicts (env.start bases).cache = fun _ => none := rfl
  rw [requests_filter] at hcases
  simp only [hempty, firstVerdict, none_or] at hrun hcases
  rw [← hrun, Fails, buildSitePatchSet]
  rcases hcases with ⟨⟨e, he⟩, hnone⟩ | ⟨patchSet, s, hok, hsome, -⟩
  · rw [he, hnone]
    exact ⟨fun _ => rfl, fun _ => ⟨e, rfl⟩⟩
  · rw [hok, hsome]
    constructor
    · rintro ⟨e, he⟩
      cases he
    · intro h
      cases h

/-! ### Required companions -/

theorem mem_requests {r : PackageRef × Bool} : r ∈ requests bases ↔
    ∃ base ∈ bases, ∃ entry ∈ base.companions, request entry = r := by
  simp [requests]

theorem requiredFails_iff (honline : env.isOffline = false) :
    env.RequiredFails bases ↔
      ∃ r ∈ requests bases, r.2 = true ∧ env.verdict bases r.1 true = false := by
  have hverdict (companion : PackageRef) : env.verdict bases companion true = false ↔
      (∀ info, ¬ env.Provides companion info) ∨
        ∃ info, env.Provides companion info ∧ ¬ env.Composes bases companion info := by
    rw [Bool.eq_false_iff, Ne, verdict_eq_true_iff]
    simp only [obtain_true_iff honline, not_exists, not_and]
    constructor
    · intro h
      by_cases hprovides : ∃ info, env.Provides companion info
      · obtain ⟨info, hinfo⟩ := hprovides
        exact .inr ⟨info, hinfo, h info hinfo⟩
      · exact .inl (not_exists.1 hprovides)
    · rintro (h | ⟨info, hinfo, hnot⟩) info' hinfo'
      · exact absurd hinfo' (h info')
      · rw [← obtain_true_iff honline] at hinfo hinfo'
        obtain rfl : info = info' := Except.ok.inj (hinfo.symm.trans hinfo')
        exact hnot
  simp only [RequiredFails, mem_requests, hverdict]
  constructor
  · rintro ⟨base, hbase, entry, hentry, hrequired, hfails⟩
    exact ⟨request entry, ⟨base, hbase, entry, hentry, rfl⟩, hrequired, hfails⟩
  · rintro ⟨_, ⟨base, hbase, entry, hentry, rfl⟩, hrequired, hfails⟩
    exact ⟨base, hbase, entry, hentry, hrequired, hfails⟩

/-- A required companion that would be composed is not fetched, because the first base that matches
it does not require it. -/
def Hidden (env : OverlayEnv Fault) (bases : List AdmittedBase) : Prop :=
  ∃ r ∈ requests bases, r.2 = true ∧ env.verdict bases r.1 true = true ∧
    env.verdict bases r.1 false = false ∧
    ((requests bases).find? fun r' => r'.1 = r.1).map Prod.snd = some false

theorem fails_iff (honline : env.isOffline = false) (hsurface : OneDigest (env.Surface bases)) :
    env.Fails bases ↔ env.RequiredFails bases ∨ env.Hidden bases := by
  rw [fails_iff_requests hsurface, requiredFails_iff honline]
  constructor
  · rintro ⟨r, hr, hinsists, hfirst⟩
    cases hfind : (requests bases).find? fun r' => r'.1 = r.1 with
    | none => simp [hfind] at hfirst
    | some r' =>
      simp only [hfind, map_some, some.injEq] at hfirst
      cases hverdict : env.verdict bases r.1 true with
      | false => exact .inl ⟨r, hr, hinsists, hverdict⟩
      | true =>
        cases hrequired : r'.2 with
        | true => simp [hrequired, hverdict] at hfirst
        | false =>
          rw [hrequired] at hfirst
          exact .inr ⟨r, hr, hinsists, hverdict, hfirst, by simp [hfind, hrequired]⟩
  · rintro (⟨r, hr, hinsists, hverdict⟩ | ⟨r, hr, hinsists, -, hverdict, hfirst⟩)
    · -- a companion that fails when it is required fails when it is optional
      have hboth (required : Bool) : env.verdict bases r.1 required = false := by
        cases required with
        | true => exact hverdict
        | false =>
          refine Bool.eq_false_iff.2 fun h => ?_
          simp [verdict_true_of_false honline h] at hverdict
      obtain ⟨r', hr'⟩ : ∃ r', (requests bases).find? (fun r' => r'.1 = r.1) = some r' :=
        isSome_iff_exists.1 (find?_isSome.2 ⟨r, hr, by simp⟩)
      exact ⟨r, hr, hinsists, by simp [hr', hboth]⟩
    · refine ⟨r, hr, hinsists, ?_⟩
      obtain ⟨r', hr', hoptional⟩ := map_eq_some_iff.1 hfirst
      simp [hr', hoptional, hverdict]

theorem fetchOnly_of_verdicts (honline : env.isOffline = false)
    (htrue : env.verdict bases companion true = true)
    (hfalse : env.verdict bases companion false = false) : env.FetchOnly companion := by
  obtain ⟨info, hinfo, hcomposes⟩ := verdict_eq_true_iff.1 htrue
  rcases (obtain_true_iff honline).1 hinfo with hfound | ⟨pin, hmiss, hfetch⟩
  · have hoptional := verdict_eq_true_iff.2 ⟨info, obtain_false_iff.2 hfound, hcomposes⟩
    simp [hoptional] at hfalse
  · exact ⟨pin, info, hmiss, hfetch⟩

theorem verdict_false_of_fetchOnly (h : env.FetchOnly companion) :
    env.verdict bases companion false = false := by
  obtain ⟨pin, info, hmiss, -⟩ := h
  refine Bool.eq_false_iff.2 fun hverdict => ?_
  obtain ⟨info', hinfo', -⟩ := verdict_eq_true_iff.1 hverdict
  obtain ⟨pin', hfound⟩ := obtain_false_iff.1 hinfo'
  simp [hmiss] at hfound

/-! ### Other orders -/

variable {bases' : List AdmittedBase}

theorem verdict_of_perm (h : bases'.Perm bases) : env.verdict bases' = env.verdict bases := by
  have hemitted := congrArg OverlayState.emitted (start_of_perm env h)
  change env.baseEmitted bases' = env.baseEmitted bases at hemitted
  funext companion required
  rw [verdict, verdict, companionAxes_of_perm env h, hemitted]

theorem surface_of_perm (h : bases'.Perm bases) : env.Surface bases' = env.Surface bases := by
  have hreached (companion : PackageRef) (info : Installed env.store) :
      env.Reached bases' companion info ↔ env.Reached bases companion info := by
    simp [Reached, h.mem_iff]
  simp [Surface, companionAxes_of_perm env h, hreached]

theorem mem_requests_of_perm (h : bases'.Perm bases) (r : PackageRef × Bool) :
    r ∈ requests bases' ↔ r ∈ requests bases :=
  (h.flatMap_right _).mem_iff

theorem requiredFails_of_perm (honline : env.isOffline = false) (h : bases'.Perm bases) :
    env.RequiredFails bases' ↔ env.RequiredFails bases := by
  simp [requiredFails_iff honline, verdict_of_perm h, mem_requests_of_perm h]

theorem not_hidden_of_uniformlyFetched (honline : env.isOffline = false)
    (huniform : env.UniformlyFetched bases) (h : bases'.Perm bases) : ¬ env.Hidden bases' := by
  rintro ⟨r, hr, hinsists, htrue, hfalse, hfirst⟩
  have hfetch := fetchOnly_of_verdicts honline htrue hfalse
  obtain ⟨r', hr', hoptional⟩ := map_eq_some_iff.1 hfirst
  have hkey : r'.1 = r.1 := by simpa using find?_some hr'
  obtain ⟨base, hbase, entry, hentry, rfl⟩ := mem_requests.1 ((mem_requests_of_perm h r).1 hr)
  obtain ⟨base', hbase', entry', hentry', rfl⟩ := mem_requests.1
    ((mem_requests_of_perm h r').1 (mem_of_find?_eq_some hr'))
  have hsame := huniform base hbase entry hentry base' hbase' entry' hentry' hkey.symm hfetch
  simp only [request] at hinsists hoptional
  simp [hinsists, hoptional] at hsame

theorem find?_map_request {entries : List CompanionEntry}
    (hnodup : (entries.map CompanionEntry.identifier).Nodup)
    (hentry : entry ∈ entries) :
    (entries.map request).find? (fun r => r.1 = entry.identifier) = some (request entry) := by
  induction entries with
  | nil => simp at hentry
  | cons e es ih =>
    rw [map_cons, nodup_cons] at hnodup
    rcases mem_cons.1 hentry with rfl | hmem
    · simp [request]
    · have hne : e.identifier ≠ entry.identifier := fun heq =>
        hnodup.1 (mem_map.2 ⟨entry, hmem, heq.symm⟩)
      rw [map_cons, find?_cons_of_neg (by simp [request, hne])]
      exact ih hnodup.2 hmem

theorem find?_requests_cons (rest : List AdmittedBase) (hentry : entry ∈ base.companions) :
    (requests (base :: rest)).find? (fun r => r.1 = entry.identifier) = some (request entry) := by
  rw [requests, flatMap_cons, find?_append, find?_map_request base.distinct hentry,
    some_or]

/-- **The order of the bases.** The composition fails exactly if a required companion cannot be had
or does not compose, whatever the order of the bases, exactly if such a companion exists or every
companion that would be fetched is required by all bases that match it or by none. -/
theorem orderFree_iff (env : OverlayEnv Fault) (bases : List AdmittedBase)
    (honline : env.isOffline = false) (hsurface : OneDigest (env.Surface bases)) :
    env.OrderFree bases ↔ env.RequiredFails bases ∨ env.UniformlyFetched bases := by
  have hfails (bases' : List AdmittedBase) (h : bases'.Perm bases) :
      env.Fails bases' ↔ env.RequiredFails bases ∨ env.Hidden bases' := by
    rw [fails_iff honline (surface_of_perm h ▸ hsurface), requiredFails_of_perm honline h]
  constructor
  · intro h
    by_contra hnot
    obtain ⟨hrequired, huniform⟩ := not_or.1 hnot
    -- some base requires a companion that is fetched, another one does not
    have hmixed : ∃ base ∈ bases, ∃ entry ∈ base.companions, ∃ base' ∈ bases,
        ∃ entry' ∈ base'.companions, entry.identifier = entry'.identifier ∧
          env.FetchOnly entry.identifier ∧ entry.required = false ∧ entry'.required = true := by
      simp only [UniformlyFetched, not_forall] at huniform
      obtain ⟨base, hbase, entry, hentry, base', hbase', entry', hentry', hkey, hfetch, hne⟩ :=
        huniform
      cases hflag : entry.required with
      | false =>
        refine ⟨base, hbase, entry, hentry, base', hbase', entry', hentry', hkey, hfetch, hflag, ?_⟩
        simpa [hflag] using hne
      | true =>
        refine ⟨base', hbase', entry', hentry', base, hbase, entry, hentry, hkey.symm,
          hkey ▸ hfetch, ?_, hflag⟩
        simpa [hflag] using hne
    obtain ⟨base, hbase, entry, hentry, base', hbase', entry', hentry', hkey, hfetch, hoptional,
      hinsists⟩ := hmixed
    -- put the base that does not require it first
    obtain ⟨before, after, rfl⟩ := append_of_mem hbase
    have hperm : (base :: (before ++ after)).Perm (before ++ base :: after) :=
      perm_middle.symm
    have hrequest : request entry' ∈ requests (before ++ base :: after) :=
      mem_requests.2 ⟨base', hbase', entry', hentry', rfl⟩
    have htrue : env.verdict (before ++ base :: after) entry'.identifier true = true := by
      by_contra hverdict
      refine hrequired ((requiredFails_iff honline).2 ⟨request entry', hrequest, hinsists, ?_⟩)
      simpa [request] using hverdict
    have hhidden : env.Hidden (base :: (before ++ after)) := by
      refine ⟨request entry', (mem_requests_of_perm hperm _).2 hrequest, hinsists, ?_, ?_, ?_⟩
      · rw [verdict_of_perm hperm]
        exact htrue
      · change env.verdict _ entry'.identifier false = false
        exact verdict_false_of_fetchOnly (hkey ▸ hfetch)
      · have hfind := find?_requests_cons (before ++ after) hentry
        rw [hkey] at hfind
        exact (congrArg (Option.map Prod.snd) hfind).trans (congrArg some hoptional)
    exact hrequired (h.required.1 ((h.perm _ hperm).1 ((hfails _ hperm).2 (.inr hhidden))))
  · rintro (hrequired | huniform)
    · have hall (bases' : List AdmittedBase) (h : bases'.Perm bases) : env.Fails bases' :=
        (hfails bases' h).2 (.inl hrequired)
      exact ⟨fun bases' h => iff_of_true (hall bases' h) (hall bases (.refl _)),
        iff_of_true (hall bases (.refl _)) hrequired⟩
    · have hall (bases' : List AdmittedBase) (h : bases'.Perm bases) :
          env.Fails bases' ↔ env.RequiredFails bases := by
        rw [hfails bases' h, or_iff_left (not_hidden_of_uniformlyFetched honline huniform h)]
      exact ⟨fun bases' h => (hall bases' h).trans (hall bases (.refl _)).symm,
        hall bases (.refl _)⟩

/-! ### A companion that one of two bases requires -/

/-- The store holds one companion. -/
def proxyStore : ObjectStore where
  machine := ⟨.unix, id, fun _ => false, fun _ path => path, fun _ => true⟩
  packageDir _ := proxyCompanion.dir
  objectData id :=
    if id = proxyCompanion.identifier.stripAdvisory then
      .ok ⟨proxyCompanion.metadata, proxyCompanion.resolved⟩
    else .error (.notFound id)

def installedProxy : Installed proxyStore := ⟨proxyCompanion, rfl, rfl, rfl⟩

/-- The companion has no pin yet; fetching it works. -/
def unpinnedEnv : OverlayEnv Unit where
  store := proxyStore
  packages := []
  selfView := false
  isOffline := false
  companionPin _ := .ok none
  findCompanionLocalAt _ _ := .ok none
  fetchCompanion _ _ := .ok installedProxy

/-- The companion as descriptors name it. -/
def proxyRef : PackageRef := ⟨"ocx.sh", "patches/proxy", some "1", none⟩

/-- A base that matches the companion. -/
def proxyBase (repository : String) (required : Bool) : AdmittedBase where
  admitted := ⟨⟨"ocx.sh", repository, none, some ⟨.sha256, repository⟩⟩, rfl⟩
  companions := [⟨proxyRef, required, "*"⟩]
  distinct := List.nodup_singleton _

theorem reached_unpinnedEnv {bases : List AdmittedBase}
    {info : Installed proxyStore} (h : unpinnedEnv.Reached bases companion info) :
    info = installedProxy := by
  obtain ⟨_, -, entry, -, -, hobtain⟩ := h
  cases hrequired : entry.required with
  | false =>
    rw [hrequired] at hobtain
    cases hobtain
  | true =>
    rw [hrequired] at hobtain
    exact (Except.ok.inj hobtain).symm

theorem oneDigest_unpinnedEnv (bases : List AdmittedBase) :
    OneDigest (unpinnedEnv.Surface bases) := by
  have hall : ∀ id ∈ unpinnedEnv.Surface bases, id = proxyCompanion.identifier := by
    rintro id (⟨root, hroot, -⟩ | ⟨companion, info, hreached, hid⟩)
    · cases hroot
    · rw [reached_unpinnedEnv hreached] at hid
      exact mem_singleton.1 hid
  intro a ha b hb _
  rw [hall a ha, hall b hb]

/-- An optional match first, and the required companion is never fetched. -/
theorem optionalFirst_fails :
    unpinnedEnv.isOffline = false ∧
      OneDigest (unpinnedEnv.Surface [proxyBase "cmake" false, proxyBase "ninja" true]) ∧
      (unpinnedEnv.buildSitePatchSet [proxyBase "cmake" false, proxyBase "ninja" true]).isOk =
        false ∧
      (unpinnedEnv.buildSitePatchSet [proxyBase "ninja" true, proxyBase "cmake" false]).isOk =
        true ∧
      ¬ unpinnedEnv.OrderFree [proxyBase "cmake" false, proxyBase "ninja" true] := by
  have hfails : (unpinnedEnv.buildSitePatchSet
      [proxyBase "cmake" false, proxyBase "ninja" true]).isOk = false := by decide +kernel
  have hsucceeds : (unpinnedEnv.buildSitePatchSet
      [proxyBase "ninja" true, proxyBase "cmake" false]).isOk = true := by decide +kernel
  refine ⟨rfl, oneDigest_unpinnedEnv _, hfails, hsucceeds, fun h => ?_⟩
  obtain ⟨e, he⟩ := (h.perm [proxyBase "ninja" true, proxyBase "cmake" false] (.swap _ _ _)).2 (by
    cases hrun : unpinnedEnv.buildSitePatchSet
      [proxyBase "cmake" false, proxyBase "ninja" true] with
    | error e => exact ⟨e, hrun⟩
    | ok patchSet => simp [hrun, Except.isOk, Except.toBool] at hfails)
  simp [he, Except.isOk, Except.toBool] at hsucceeds

/-- Required by both bases, the companion is fetched. -/
theorem bothRequired_orderFree :
    unpinnedEnv.OrderFree [proxyBase "cmake" true, proxyBase "ninja" true] := by
  refine (orderFree_iff unpinnedEnv _ rfl (oneDigest_unpinnedEnv _)).2 (.inr ?_)
  have hall : ∀ base ∈ [proxyBase "cmake" true, proxyBase "ninja" true],
      ∀ entry ∈ base.companions, entry.required = true := by
    intro base hbase entry hentry
    fin_cases hbase <;> rw [mem_singleton.1 hentry]
  intro base hbase entry hentry base' hbase' entry' hentry' _ _
  rw [hall base hbase entry hentry, hall base' hbase' entry' hentry']

end OverlayEnv

end Ocx
