import Ocx.Index.Chained

/-!
# Resolving keeps local pins

The root document of a repository pins a tag to a content digest.  Resolving the tag must give
that content whatever the sources say the tag means by now.  It does when the dispatch object of
the digest is there, and when it is absent: then the content is taken from the blob store or asked
for by its digest, and an answer with another digest is refused.

It does not when the object is there but cannot be used.  In the default mode such an object counts
as a miss of the local index, and the sources are asked for the *tag*: what they answer is handed
on, whatever its digest.  The other modes refuse to resolve the tag from the sources.
-/

namespace Ocx

variable {s' : IndexState} {op : IndexOperation}

/-- The local root pins the tag of the identifier to the digest, and the tag is not refused. -/
def PinsTo (env : IndexEnv) (s : IndexState) (identifier : PackageRef) (kind : SourceKind)
    (allowYanked : Bool) (content : Digest) : Prop :=
  ∃ root tag,
    (runAt (readRootByKind env identifier.registry identifier.repository kind) s).1 =
      .ok (some root) ∧
    root.tags[identifier.tagOrLatest]? = some tag ∧
    surfaceRootStatus identifier root tag allowYanked = .ok () ∧ tag.content = content

/-- A failure, nothing, or a manifest of the digest. -/
def KeepsPin (content : Digest) (result : Except IndexError (Option (Digest × Manifest))) : Prop :=
  ∀ digest manifest, result = .ok (some (digest, manifest)) → digest = content

variable {env : IndexEnv} {s : IndexState} {identifier : PackageRef} {kind : SourceKind}
  {allowYanked : Bool} {content : Digest}

/-! ### Resolving a pinned tag against the local index -/

theorem Resolved.of_files_eq {source repository : String}
    {result : Except IndexError DispatchResolution}
    (h : Resolved env s' source repository content result)
    (hs : s'.files (.object (slugify source) repository content) =
      s.files (.object (slugify source) repository content)) :
    Resolved env s source repository content result := by
  unfold Resolved ObjectReadable at h ⊢
  rwa [hs] at h

theorem runAt_resolveDispatch_tag (hdigest : identifier.digest = none) :
    runAt (resolveDispatch env identifier kind allowYanked) s =
      runAt (readRootByKind env identifier.registry identifier.repository kind >>= fun
        | none => pure none
        | some root =>
          match root.tags[identifier.tagOrLatest]? with
          | none => pure none
          | some tag => do
            ofExcept (surfaceRootStatus identifier root tag allowYanked)
            some <$> resolveContent env identifier.registry identifier.repository tag.content)
        s := by
  obtain ⟨registry, repository, tag, digest⟩ := identifier
  cases hdigest
  rfl

theorem PinsTo.resolve (hpins : PinsTo env s identifier kind allowYanked content)
    (hdigest : identifier.digest = none) :
    ∃ s' result, (∀ f, f ≠ .catalog (slugify identifier.registry) → s'.files f = s.files f) ∧
      Resolved env s identifier.registry identifier.repository content result ∧
      runAt (resolveDispatch env identifier kind allowYanked) s = (result.map some, s') := by
  obtain ⟨root, tag, hroot, htag, hstatus, rfl⟩ := hpins
  have hcommitted := committed_of_readRootByKind hroot
  rcases hread : runAt (readRootByKind env identifier.registry identifier.repository kind) s with
    ⟨r, s'⟩
  rw [hread] at hroot
  obtain rfl : r = .ok (some root) := hroot
  have hfiles : ∀ f, f ≠ .catalog (slugify identifier.registry) → s'.files f = s.files f :=
    fun f hf => (Preserves.readRootByKind hf identifier.repository kind).files_eq hread
  refine ⟨s', _, hfiles, (resolved_resolveContent hcommitted.source_contained
    hcommitted.repository_contained tag.content).of_files_eq (hfiles _ (by simp)), ?_⟩
  rw [runAt_resolveDispatch_tag hdigest, runAt_bind_ok hread]
  simp only [htag]
  rw [hstatus, runAt_bind_ok (runAt_ofExcept _), runAt_map,
    ← keeps_eq_resolveContent tag.content s' trivial]

theorem PinsTo.not_resolves (hpins : PinsTo env s identifier kind allowYanked content)
    (hdigest : identifier.digest = none)
    (hobject : ¬ ObjectReadable env s identifier.registry identifier.repository content)
    (hs : ∀ f, f ≠ .catalog (slugify identifier.registry) → s'.files f = s.files f)
    (r : DispatchResolution) :
    (runAt (resolveDispatch env identifier kind allowYanked) s').1 ≠ .ok (some r) := by
  intro h
  obtain ⟨root, tag, hroot, htag, hstatus, rfl⟩ := hpins
  obtain ⟨read, _, hread, hrest⟩ :=
    exists_of_runAt_bind_eq_ok (runAt_resolveDispatch_tag hdigest ▸ h)
  cases read with
  | none => exact absurd (Except.ok.inj hrest) (by simp)
  | some root' =>
    -- the root is read again, and is the same one
    have hread := congrArg Prod.fst hread
    obtain rfl : root' = root := (committed_of_readRootByKind hroot).unique
      (committed_of_readRootByKind hread) (hs _ (by simp))
    have hpins : PinsTo env s' identifier kind allowYanked tag.content :=
      ⟨root', tag, hread, htag, hstatus, rfl⟩
    obtain ⟨_, result, -, hresolved, hrun⟩ := hpins.resolve hdigest
    cases result with
    | ok _ => exact hobject (hresolved.of_files_eq (hs _ (by simp))).1
    | error e =>
      rw [hrun] at h
      cases h

/-! ### Answers that keep a pin -/

namespace ChainedIndex

variable {chain : ChainedIndex} {t : Traced IndexState} {growRoot : Bool}

theorem keepsPin_error (e : IndexError) : KeepsPin content (.error e) := by
  intro digest manifest h
  simp at h

theorem keepsPin_none : KeepsPin content (.ok none) := by
  intro digest manifest h
  simp at h

theorem keepsPin_some (manifest : Manifest) :
    KeepsPin content (.ok (some (content, manifest))) := by
  intro digest manifest' h
  simp only [Except.ok.injEq, Option.some.injEq, Prod.mk.injEq] at h
  exact h.1.symm

theorem keepsPin_recoverAbsentDispatch :
    KeepsPin content (runAt (chain.recoverAbsentDispatch env identifier content) s).1 := by
  intro digest manifest h
  unfold recoverAbsentDispatch at h
  split at h
  · obtain ⟨read, s₁, -, h⟩ := exists_of_runAt_bind_eq_ok h
    cases read with
    | none => exact keepsPin_none _ _ h
    | some bytes =>
      dsimp only at h
      split at h
      · split at h
        · exact keepsPin_none _ _ h
        · obtain ⟨_, _, -, h⟩ := exists_of_runAt_bind_eq_ok h
          exact keepsPin_some _ _ _ h
      · exact keepsPin_none _ _ h
  · exact keepsPin_none _ _ h

theorem keepsPin_verifyWalkedDigest (hdigest : identifier.digest = some content)
    (head : Option (Digest × Manifest)) :
    KeepsPin content (verifyWalkedDigest identifier head) := by
  unfold verifyWalkedDigest
  rw [hdigest]
  cases head with
  | none => exact keepsPin_none
  | some head =>
    dsimp only
    split
    · rename_i heq
      rw [heq]
      exact keepsPin_some _
    · exact keepsPin_error _

theorem keepsPin_walkChain (hdigest : identifier.digest = some content) :
    KeepsPin content (runAt (chain.walkChain env identifier growRoot) t).1 := by
  intro digest manifest h
  obtain ⟨_, t₁, -, h⟩ := exists_of_runAt_bind_eq_ok h
  split at h
  · exact keepsPin_none _ _ h
  · obtain ⟨head, t₂, -, h⟩ := exists_of_runAt_bind_eq_ok h
    cases head with
    | error e => exact keepsPin_error _ _ _ h
    | ok head =>
      rw [hdigest] at h
      exact keepsPin_verifyWalkedDigest hdigest head _ _ h

theorem walkChain_refuses (hmode : chain.mode = .offline ∨ chain.mode = .frozen)
    (hdigest : identifier.digest = none)
    (hlocal : ∀ r, (runAt (resolveDispatch env identifier (chain.kindFor identifier)
      chain.allowYanked) t.state).1 ≠ .ok (some r)) (head : Option (Digest × Manifest)) :
    (runAt (chain.walkChain env identifier growRoot) t).1 ≠ .ok head := by
  intro h
  obtain ⟨_, t₁, hgate, -⟩ := exists_of_runAt_bind_eq_ok h
  have hguard : (runAt (chain.ensureLocallyResolvable env identifier) t.state).1 = .ok () := by
    unfold gateWalk at hgate
    rw [if_pos ⟨hmode, hdigest⟩] at hgate
    exact congrArg Prod.fst hgate
  obtain ⟨r, s₁, hresolve, h⟩ := exists_of_runAt_bind_eq_ok hguard
  cases r with
  | none => exact absurd h (by simp)
  | some r => exact hlocal r (congrArg Prod.fst hresolve)

/-! ### Resolving a pinned tag -/

theorem runAt_readLocal (hmode : chain.mode ≠ .remote)
    {r : Except IndexError (Option DispatchResolution)}
    (h : runAt (resolveDispatch env identifier (chain.kindFor identifier) chain.allowYanked) s =
      (r, s')) :
    runAt (chain.readLocal env identifier op) s =
      (match r with
        | .ok resolution => .ok (resolution, false)
        | .error e =>
          if isLocalReadRefusal e then .error e
          else if isCorruptIndexObject e && !(op = .resolve && chain.mode ≠ .offline) then .error e
          else .ok (none, isCorruptIndexObject e), s') := by
  unfold readLocal
  have hattempt : runAt (attempt (resolveDispatch env identifier (chain.kindFor identifier)
      chain.allowYanked)) s = (.ok r, s') := by
    rw [runAt_attempt, h]
  rw [if_pos (by simp [hmode]), runAt_bind_ok hattempt]
  cases r with
  | ok resolution => rfl
  | error e =>
    dsimp only
    split
    · rfl
    · split <;> rfl

end ChainedIndex

theorem file_ne_config (h : content.WellFormed) : content.hex ++ ".json" ≠ "config.json" := by
  intro heq
  have hlength := congrArg String.length heq
  rw [String.length_append] at hlength
  have hhex := h.1
  cases hc : content.algorithm <;> rw [hc] at hhex <;>
    simp only [Algorithm.hexLen] at hhex <;> rw [hhex] at hlength <;>
      exact absurd hlength (by decide)

instance : Nontrivial Digest := ⟨⟨.sha256, ""⟩, ⟨.sha512, ""⟩, by decide⟩

namespace ChainedIndex

variable {chain : ChainedIndex} {growRoot : Bool}

theorem runAt_fetchManifest {found : Option DispatchResolution × Bool}
    (h : runAt (chain.readLocal env identifier op) s = (.ok found, s')) :
    runAt (chain.fetchManifest env identifier op) ⟨s, []⟩ =
      runAt (chain.manifestFromLocal env identifier op found) ⟨s', []⟩ := by
  have huntraced : runAt (untraced (chain.readLocal env identifier op)) ⟨s, []⟩ =
      (.ok found, ⟨s', []⟩) := by
    rw [runAt_untraced, h]
  exact runAt_bind_ok huntraced _

theorem keepsPin_of_readable (chain : ChainedIndex) (hmode : chain.mode ≠ .remote)
    (hdigest : identifier.digest = none)
    (hpins : PinsTo env s identifier (chain.kindFor identifier) chain.allowYanked content)
    (hobject : ObjectReadable env s identifier.registry identifier.repository content) :
    KeepsPin content (runAt (chain.fetchManifest env identifier .resolve) ⟨s, []⟩).1 := by
  obtain ⟨s', result, -, hresolved, hresolve⟩ := hpins.resolve hdigest
  cases result with
  | error e => exact absurd hobject hresolved.1
  | ok r =>
    rw [runAt_fetchManifest (runAt_readLocal hmode hresolve)]
    rcases hresolved.2 with rfl | ⟨index, rfl⟩
    · intro digest manifest h
      obtain ⟨recovered, t₁, hrecover, h⟩ := exists_of_runAt_bind_eq_ok h
      cases recovered with
      | some recovered =>
        have hkeeps := keepsPin_recoverAbsentDispatch recovered.1 recovered.2
          (congrArg Prod.fst hrecover)
        rw [← hkeeps]
        exact keepsPin_some _ _ _ h
      | none =>
        rw [hdigest] at h
        exact keepsPin_walkChain rfl _ _ h
    · exact keepsPin_some _

theorem runAt_fetchManifest_error {e : IndexError}
    (h : runAt (chain.readLocal env identifier op) s = (.error e, s')) :
    runAt (chain.fetchManifest env identifier op) ⟨s, []⟩ = (.error e, ⟨s', []⟩) := by
  have huntraced : runAt (untraced (chain.readLocal env identifier op)) ⟨s, []⟩ =
      (.error e, ⟨s', []⟩) := by
    rw [runAt_untraced, h]
  exact runAt_bind_error huntraced _

theorem readLocal_of_error (hmode : chain.mode ≠ .remote) {e : IndexError}
    (h : runAt (resolveDispatch env identifier (chain.kindFor identifier) chain.allowYanked) s =
      (.error e, s')) :
    (∃ e', runAt (chain.readLocal env identifier op) s = (.error e', s')) ∨
      runAt (chain.readLocal env identifier op) s = (.ok (none, isCorruptIndexObject e), s') := by
  rw [runAt_readLocal hmode h]
  dsimp only
  split
  · exact .inl ⟨e, rfl⟩
  · split
    · exact .inl ⟨e, rfl⟩
    · exact .inr rfl

theorem keepsPin_of_refusing (chain : ChainedIndex)
    (hmode : chain.mode = .offline ∨ chain.mode = .frozen) (hdigest : identifier.digest = none)
    (hpins : PinsTo env s identifier (chain.kindFor identifier) chain.allowYanked content)
    (hobject : ¬ ObjectReadable env s identifier.registry identifier.repository content) :
    KeepsPin content (runAt (chain.fetchManifest env identifier .resolve) ⟨s, []⟩).1 := by
  have hremote : chain.mode ≠ .remote := by
    rcases hmode with hmode | hmode <;> simp [hmode]
  obtain ⟨s', result, hs, hresolved, hresolve⟩ := hpins.resolve hdigest
  cases result with
  | ok r => exact absurd hresolved.1 hobject
  | error e =>
    rcases readLocal_of_error hremote hresolve with ⟨e', hlocal⟩ | hlocal
    · rw [runAt_fetchManifest_error hlocal]
      exact keepsPin_error _
    · rw [runAt_fetchManifest hlocal]
      simp only [manifestFromLocal, hremote, false_and, if_false]
      intro digest manifest h
      exact absurd h (walkChain_refuses hmode hdigest
        (fun r => hpins.not_resolves hdigest hobject hs r) _)

/-- A source that answers every manifest request with one digest. -/
def movingSource (kind : SourceKind) (digest : Digest) : IndexSource where
  jurisdiction _ := .fallThrough
  servesRegistry _ := true
  sourceKind := kind
  indexBaseUrl := none
  listTags _ := .ok none
  fetchManifest _ := .ok none
  fetchManifestDigest _ := .ok none
  fetchManifestRawBytes _ := .ok (some ([], digest, .image))
  fetchBlob _ := .ok none
  fetchRootDocument _ := .ok none
  revalidateRootDocument _ := .ok none

theorem runAt_persistHit_movingSource (digest : Digest) :
    (runAt (chain.persistHit env identifier growRoot (movingSource kind digest)
      ([], digest, .image)) s).1 = .ok (digest, .image) := by
  have hcache : ∃ s', runAt (chain.cacheLeaf env identifier digest [] .image) s = (.ok (), s') := by
    by_cases hstore : chain.contentStore = true
    · exact ⟨_, by simp only [cacheLeaf, hstore, if_true]; rfl⟩
    · exact ⟨_, by simp only [cacheLeaf, hstore]; rfl⟩
  have hgrow : ∀ tag s', runAt (growRootTag env (movingSource kind digest) identifier digest .image
      tag) s' = (.ok (), s') := by
    intro tag s'
    cases kind <;> rfl
  obtain ⟨s', hcache⟩ := hcache
  unfold persistHit
  rw [runAt_bind_ok hcache]
  cases chain.grownTag identifier growRoot with
  | none => rfl
  | some tag =>
    show (runAt (growRootTag env (movingSource kind digest) identifier digest .image tag >>=
      fun _ => pure (digest, Manifest.image)) s').1 = _
    rw [runAt_bind_ok (hgrow tag s'), runAt_pure]

theorem runAt_walkChain_movingSource (hmode : chain.mode = .default)
    (hdigest : identifier.digest = none) (digest : Digest)
    (hsources : chain.sources = [movingSource kind digest]) (t : Traced IndexState) :
    (runAt (chain.walkChain env identifier growRoot) t).1 = .ok (some (digest, .image)) := by
  have hgate : runAt (untraced (chain.gateWalk env identifier)) t = (.ok (), t) := by
    unfold gateWalk
    rw [if_neg (by simp [hmode])]
    rfl
  unfold walkChain
  rw [runAt_bind_ok hgate, if_neg (by simp [hmode])]
  simp only [hdigest, Option.isSome_none, Bool.false_eq_true, if_false]
  set walked := identifier.cloneWithTag identifier.tagOrLatest with hwalked
  have hcandidates : chain.candidateSources walked = [(movingSource kind digest, false)] := by
    rw [candidateSources, hsources]
    rfl
  have hask : runAt (chain.askDispatch env walked (movingSource kind digest)) t.state =
      (.ok (some ([], digest, .image)), t.state) := by
    unfold askDispatch
    split <;> rfl
  have hchain : (runAt (chain.fetchAndPersistChain env walked growRoot) t).1 =
      .ok (some (digest, .image)) := by
    unfold fetchAndPersistChain
    rw [hcandidates, runAt_consult_hit hask, runAt_persistHit_movingSource]
    rfl
  rw [runAt_bind, runAt_attempt, hchain]
  rfl

theorem not_keepsPin_of_not_readable (chain : ChainedIndex) (hmode : chain.mode = .default)
    (hdigest : identifier.digest = none) (hcontent : content.WellFormed)
    (hpins : PinsTo env s identifier kind chain.allowYanked content)
    (hobject : ¬ ObjectReadable env s identifier.registry identifier.repository content)
    {digest : Digest} (hmoved : digest ≠ content)
    (hsources : chain.sources = [movingSource kind digest]) :
    ¬ KeepsPin content (runAt (chain.fetchManifest env identifier .resolve) ⟨s, []⟩).1 := by
  have hkind : chain.kindFor identifier = kind := by
    rw [kindFor, hsources]
    rfl
  have hremote : chain.mode ≠ .remote := by simp [hmode]
  rw [← hkind] at hpins
  obtain ⟨s', result, -, hresolved, hresolve⟩ := hpins.resolve hdigest
  cases result with
  | ok r => exact absurd hresolved.1 hobject
  | error e =>
    -- the failure is no refusal: the object of a digest is not called `config.json`
    have hrefusal : isLocalReadRefusal e = false := by
      rcases hresolved.2 with rfl | hcorrupt
      · exact decide_eq_false (file_ne_config hcontent)
      · cases e <;> first | rfl | exact absurd hcorrupt (by simp [isCorruptIndexObject])
    have hlocal : runAt (chain.readLocal env identifier .resolve) s =
        (.ok (none, isCorruptIndexObject e), s') := by
      rw [runAt_readLocal hremote hresolve]
      simp [Except.map, hrefusal, hmode]
    rw [runAt_fetchManifest hlocal]
    simp only [manifestFromLocal, hremote, false_and, if_false]
    intro hkeeps
    exact hmoved (hkeeps _ _ (runAt_walkChain_movingSource hmode hdigest digest hsources _))

/-- **Pins are kept.** Whatever the sources answer, resolving a tag that the local root pins gives a
failure, nothing, or the pinned content, exactly when its dispatch object is readable or the mode is
not the default one. -/
theorem fetchManifest_keepsPin_iff (env : IndexEnv) (chain : ChainedIndex) (s : IndexState)
    (identifier : PackageRef) (kind : SourceKind) (content : Digest)
    (hmode : chain.mode ≠ .remote) (hdigest : identifier.digest = none)
    (hcontent : content.WellFormed)
    (hpins : PinsTo env s identifier kind chain.allowYanked content) :
    (∀ sources, { chain with sources := sources }.kindFor identifier = kind →
      KeepsPin content
        (runAt ({ chain with sources := sources }.fetchManifest env identifier .resolve)
          ⟨s, []⟩).1) ↔
      (chain.mode = .default →
        ObjectReadable env s identifier.registry identifier.repository content) := by
  constructor
  · intro hkeeps hdefault
    by_contra hobject
    obtain ⟨digest, hmoved⟩ := exists_ne content
    exact not_keepsPin_of_not_readable { chain with sources := [movingSource kind digest] }
      hdefault hdigest hcontent hpins hobject hmoved rfl (hkeeps _ rfl)
  · intro hreadable sources hkind
    subst hkind
    by_cases hobject : ObjectReadable env s identifier.registry identifier.repository content
    · exact keepsPin_of_readable { chain with sources := sources } hmode hdigest hpins hobject
    · refine keepsPin_of_refusing { chain with sources := sources } ?_ hdigest hpins hobject
      cases hm : chain.mode with
      | default => exact absurd (hreadable hm) hobject
      | remote => exact absurd hm hmode
      | offline => exact .inl rfl
      | frozen => exact .inr rfl

/-! ### A pin that moves -/

/-- The digest the root of the example pins. -/
def pinnedDigest : Digest :=
  ⟨.sha256, "aaaaaaaaaaaaaaaaaaaaaaaaaaaaaaaaaaaaaaaaaaaaaaaaaaaaaaaaaaaaaaaa"⟩

/-- The digest the tag of the example names by now. -/
def movedDigest : Digest :=
  ⟨.sha256, "bbbbbbbbbbbbbbbbbbbbbbbbbbbbbbbbbbbbbbbbbbbbbbbbbbbbbbbbbbbbbbbb"⟩

/-- The identifier of the example. -/
def pinnedTag : PackageRef := ⟨"ghcr.io", "cmake", some "3.28", none⟩

/-- Bytes `[1]` hash to the pinned digest, and all others to the moved one; bytes `[0]` are a root
that pins the tag. -/
def pinnedEnv : IndexEnv where
  hash algorithm bytes := ⟨algorithm, if bytes = [1] then pinnedDigest.hex else movedDigest.hex⟩
  parseManifest _ := some .image
  parseImageIndex _ := none
  docs.parse _ := none
  docs.readRoot bytes := if bytes = [0] then
    some ⟨"oci://ghcr.io/cmake", (∅ : Std.ExtTreeMap String RootTag).insert "3.28"
      ⟨pinnedDigest, none, false⟩, none, none, none⟩ else none
  docs.write _ := []
  parseConfig _ := none
  parseCatalog _ := none
  serializeCatalog _ := []
  newConfig := []
  parseDerivedRoot _ := none
  serializeDerivedRoot _ := []
  now := ""
  wellFormedPointer _ := true
  contained _ := true
  fault _ := none

/-- The root pins the tag, and the dispatch object of its digest is the file given. -/
def pinnedState (object : FileState) : IndexState where
  files
    | .root "ghcr.io" "cmake" => .content [0]
    | .object "ghcr.io" "cmake" d => if d = pinnedDigest then object else .absent
    | _ => .absent
  gatedSources := []

/-- A registry behind the local index. -/
def pinnedChain : ChainedIndex where
  sources := [movingSource .derived movedDigest]
  mode := .default
  writePolicy := .full
  contentStore := true
  allowYanked := false

theorem pinnedState_pinsTo (object : FileState) :
    PinsTo pinnedEnv (pinnedState object) pinnedTag .derived false pinnedDigest :=
  ⟨_, _, rfl, rfl, rfl, rfl⟩

/-- The pins of a readable object are kept. -/
theorem fetchManifest_keepsPin_absent :
    PinsTo pinnedEnv (pinnedState .absent) pinnedTag .derived false pinnedDigest ∧
      ∀ sources, { pinnedChain with sources := sources }.kindFor pinnedTag = .derived →
        KeepsPin pinnedDigest (runAt ({ pinnedChain with sources := sources }.fetchManifest
          pinnedEnv pinnedTag .resolve) ⟨pinnedState .absent, []⟩).1 :=
  ⟨pinnedState_pinsTo .absent,
    (fetchManifest_keepsPin_iff pinnedEnv pinnedChain (pinnedState .absent) pinnedTag .derived
      pinnedDigest (by decide) rfl (by decide) (pinnedState_pinsTo .absent)).2 fun _ => trivial⟩

/-- A corrupt object lets the tag move to what the registry has under it by now. -/
theorem corrupt_object_moves_pin :
    PinsTo pinnedEnv (pinnedState (.content [2])) pinnedTag (pinnedChain.kindFor pinnedTag) false
        pinnedDigest ∧
      ¬ KeepsPin pinnedDigest (runAt (pinnedChain.fetchManifest pinnedEnv pinnedTag .resolve)
        ⟨pinnedState (.content [2]), []⟩).1 := by
  refine ⟨pinnedState_pinsTo _, fun hkeeps => ?_⟩
  have hmoved := hkeeps movedDigest .image rfl
  revert hmoved
  decide

end ChainedIndex

end Ocx
