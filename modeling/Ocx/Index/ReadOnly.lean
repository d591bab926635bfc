import Ocx.Index.Chained
import Ocx.Index.RootRead

/-!
# What a read-only view writes

A read-only view of the index may not write into the local index.  Its walks and its recoveries ask
the write policy before they write, but the read of a published root does not: when the catalog
entry of the root disagrees with the document, the read writes the entry anew, whatever the policy.

`readOnly_leaves_index_iff` says for every read exactly when the files of the index home stay as
they are: when the read does not come to the local root, or the root is not a published one, or
the entry is not stale.
-/

namespace Ocx

variable {env : IndexEnv} {s s' : IndexState} {source repository : String}

/-! ### The reads of a view -/

inductive ViewRead
  | fetchManifest (op : IndexOperation)
  | fetchManifestDigest (op : IndexOperation)
  | listTags
  /-- The physical location of a package. -/
  | physicalReference

namespace ChainedIndex

def perform (env : IndexEnv) (chain : ChainedIndex) (routing : Routing) (identifier : PackageRef) :
    ViewRead → ChainM Unit
  | .fetchManifest op => (fun _ => ()) <$> chain.fetchManifest env identifier op
  | .fetchManifestDigest op => (fun _ => ()) <$> chain.fetchManifestDigest env identifier op
  | .listTags => (fun _ => ()) <$> chain.listTags env identifier
  | .physicalReference =>
    (fun _ => ()) <$> untraced (chain.physicalReference env routing identifier)

/-- No source that is asked for a location has one, or refuses one. -/
def Unlocated (chain : ChainedIndex) (identifier : PackageRef) : Prop :=
  ∀ c ∈ chain.candidateSources identifier,
    c.1.physicalReference identifier = .ok none ∨
      ∃ e, c.1.physicalReference identifier = .error e ∧ isSourceOutage e = true

/-- The read comes to the local root: a digest needs no root, and in the remote mode only locations
come to it, when no source has one. -/
def ReadsLocalRoot (chain : ChainedIndex) (identifier : PackageRef) : ViewRead → Prop
  | .fetchManifest _ | .fetchManifestDigest _ => identifier.digest = none ∧ chain.mode ≠ .remote
  | .listTags => chain.mode ≠ .remote
  | .physicalReference => chain.mode ≠ .remote ∨ chain.Unlocated identifier

variable {chain : ChainedIndex} {identifier : PackageRef} {P : IndexState → Prop}

/-- The read of the local root keeps the index home. -/
def RootKept (env : IndexEnv) (chain : ChainedIndex) (identifier : PackageRef)
    (P : IndexState → Prop) : Prop :=
  Keeps P (SameHome env)
    (readRootByKind env identifier.registry identifier.repository (chain.kindFor identifier))

theorem keeps_of_eq {α : Type} {x : LocalM α} (h : Keeps (fun _ => True) Eq x) :
    Keeps P (SameHome env) x := by
  intro s _
  rw [← h s trivial]
  exact .refl s

theorem sameHome_update_blob (registry : String) (shard : Path) (v : FileState) :
    SameHome env s { s with files := Function.update s.files (.blob registry shard) v } := by
  refine .of_files (fun f hf => Function.update_of_ne ?_ _ _) rfl
  rintro rfl
  exact Bool.noConfusion hf

theorem keeps_writeFile_blob {registry : String} {shard : Path} (bytes : Bytes) :
    Keeps P (SameHome env) (writeFile env (.blob registry shard) bytes) := by
  intro s _
  unfold writeFile
  cases env.fault (.blob registry shard) with
  | some e => exact .refl s
  | none => exact sameHome_update_blob registry shard _

theorem keeps_removeFile_blob {registry : String} {shard : Path} :
    Keeps P (SameHome env) (removeFile env (.blob registry shard)) := by
  intro s _
  unfold removeFile
  cases env.fault (.blob registry shard) with
  | some e => exact .refl s
  | none => exact sameHome_update_blob registry shard _

theorem grownTag_readOnly (hpolicy : chain.writePolicy = .readOnly) (growRoot : Bool) :
    chain.grownTag identifier growRoot = none := by
  unfold grownTag
  rw [hpolicy]
  simp

section Parts

variable (hP : Frame P (SameHome env))
include hP

theorem keeps_recoverAbsentDispatch (hpolicy : chain.writePolicy = .readOnly) (content : Digest) :
    Keeps P (SameHome env) (chain.recoverAbsentDispatch env identifier content) := by
  refine .ite (fun _ => ?_) fun _ => .pure hP _
  refine .bind hP (keeps_of_eq (keeps_eq_readFile _)) fun bytes => ?_
  cases bytes with
  | none => exact .pure hP _
  | some bytes =>
    refine .ite (fun _ => ?_) fun _ =>
      .bind hP keeps_removeFile_blob.attempt fun _ => .pure hP _
    cases env.parseManifest bytes with
    | none => exact .pure hP _
    | some manifest =>
      have hheal : Keeps P (SameHome env)
          (chain.healDispatch env identifier content bytes manifest) := by
        cases manifest with
        | image => exact .pure hP _
        | imageIndex index =>
          unfold healDispatch
          rw [if_pos hpolicy]
          exact .pure hP _
      exact .bind hP hheal fun _ => .pure hP _

theorem keeps_cacheLeaf (digest : Digest) (bytes : Bytes) (manifest : Manifest) :
    Keeps P (SameHome env) (chain.cacheLeaf env identifier digest bytes manifest) := by
  cases manifest with
  | imageIndex index => exact .pure hP _
  | image =>
    refine .ite (fun _ => ?_) fun _ => .pure hP _
    have hwrite : Keeps P (SameHome env) (writeBlob env identifier.registry digest bytes) := by
      refine .bind hP (.get hP) fun s => ?_
      split
      · exact keeps_writeFile_blob bytes
      · exact keeps_writeFile_blob bytes
      · exact .pure hP _
    exact .bind hP hwrite.attempt fun _ => .pure hP _

theorem keeps_fetchAndPersistChain (hpolicy : chain.writePolicy = .readOnly) (growRoot : Bool) :
    Keeps (Traced.Holds P) (Traced.Related (SameHome env))
      (chain.fetchAndPersistChain env identifier growRoot) := by
  refine .consult hP (fun source => ?_) (fun source answer => ?_) (fun source => ?_) _ _ _
  · unfold askDispatch
    rw [if_pos hpolicy]
    exact .ofExcept hP _
  · obtain ⟨bytes, digest, manifest⟩ := answer
    refine .bind hP (keeps_cacheLeaf hP digest bytes manifest) fun _ => ?_
    rw [grownTag_readOnly hpolicy]
    exact .bind hP (.pure hP _) fun _ => .pure hP _
  · unfold persistMiss
    cases source.indexBaseUrl with
    | none => exact .pure hP _
    | some baseUrl =>
      have hdropped : (if source.sourceKind = .published then chain.grownTag identifier growRoot
          else none) = none := by
        rw [grownTag_readOnly hpolicy, ite_self]
      rw [hdropped]
      exact .bind hP (.pure hP _) fun _ => .throw hP _

end Parts

/-! ### Reads that come to the root, or not -/

section Operations

variable (hP : Frame P (SameHome env)) (hpolicy : chain.writePolicy = .readOnly)
  (hroot : identifier.digest = none → chain.mode ≠ .remote → RootKept env chain identifier P)

theorem keeps_resolveRoot {P' : IndexState → Prop} {Q : IndexState → IndexState → Prop}
    (h : Leads P Q P' (SameHome env)) (hdigest : identifier.digest = none)
    (hroot : Keeps P Q
      (readRootByKind env identifier.registry identifier.repository (chain.kindFor identifier))) :
    Keeps P Q (resolveDispatch env identifier (chain.kindFor identifier) chain.allowYanked) := by
  unfold resolveDispatch
  rw [hdigest]
  refine .andThen h hroot fun root => ?_
  cases root with
  | none => exact .pure h.frame _
  | some root =>
    dsimp only
    split
    · exact .pure h.frame _
    · exact .bind h.frame (.ofExcept h.frame _) fun _ =>
        (keeps_of_eq (keeps_eq_resolveContent _)).map _

include hP

theorem keeps_resolveDispatch
    (hroot : identifier.digest = none → RootKept env chain identifier P) :
    Keeps P (SameHome env)
      (resolveDispatch env identifier (chain.kindFor identifier) chain.allowYanked) := by
  cases hdigest : identifier.digest with
  | some digest =>
    unfold resolveDispatch
    rw [hdigest]
    exact (keeps_of_eq (keeps_eq_resolveContent digest)).map _
  | none => exact keeps_resolveRoot hP.leads hdigest (hroot hdigest)

theorem keeps_querySources {α : Type} (ask : IndexSource → Except IndexError (Option α)) :
    Keeps (Traced.Holds P) (Traced.Related (SameHome env)) (chain.querySources identifier ask) :=
  .consult hP (fun _ => .ofExcept hP _) (fun _ _ => .pure hP _) (fun _ => .pure hP _) _ _ _

include hroot

theorem keeps_readLocal (op : IndexOperation) :
    Keeps P (SameHome env) (chain.readLocal env identifier op) := by
  refine .ite (fun hreads => ?_) fun _ => .pure hP _
  have hresolve :=
    keeps_resolveDispatch hP fun hdigest => hroot hdigest (by simpa [hdigest] using hreads)
  refine .bind hP hresolve.attempt fun r => ?_
  cases r with
  | ok resolution => exact .pure hP _
  | error e =>
    exact .ite (fun _ => .throw hP _) fun _ => .ite (fun _ => .throw hP _) fun _ => .pure hP _

include hpolicy

theorem keeps_walkChain (growRoot : Bool) :
    Keeps (Traced.Holds P) (Traced.Related (SameHome env))
      (chain.walkChain env identifier growRoot) := by
  have hgate : Keeps P (SameHome env) (chain.gateWalk env identifier) := by
    refine .ite (fun hgated => ?_) fun _ => .pure hP _
    have hmode : chain.mode ≠ .remote := by
      rcases hgated.1 with h | h <;> rw [h] <;> decide
    refine .bind hP (keeps_resolveDispatch hP fun hdigest => hroot hdigest hmode) fun r => ?_
    cases r with
    | none => exact .throw hP _
    | some _ => exact .pure hP _
  refine .bind hP.traced hgate.untraced fun _ => ?_
  refine .ite (fun _ => .pure hP.traced _) fun _ => ?_
  refine .bind hP.traced (keeps_fetchAndPersistChain hP hpolicy growRoot).attempt fun r => ?_
  cases r with
  | ok head => exact .ofExcept hP.traced _
  | error e => exact .throw hP.traced _

theorem keeps_manifestFromLocal (op : IndexOperation) (found : Option DispatchResolution × Bool) :
    Keeps (Traced.Holds P) (Traced.Related (SameHome env))
      (chain.manifestFromLocal env identifier op found) := by
  obtain ⟨resolution, corruptKnown⟩ := found
  rcases resolution with _ | ⟨content, index⟩ | content
  · refine .ite (fun _ => keeps_querySources hP _) fun _ => ?_
    cases op with
    | query => exact .pure hP.traced _
    | resolve => exact keeps_walkChain hP hpolicy hroot _
  · exact .pure hP.traced _
  · refine .bind hP.traced (keeps_recoverAbsentDispatch hP hpolicy content).untraced fun r => ?_
    cases r with
    | some recovered => exact .pure hP.traced _
    | none =>
      cases op with
      | query => exact .pure hP.traced _
      | resolve =>
        -- the walk is for a digest, which the gate does not look up
        refine keeps_walkChain hP hpolicy (fun hdigest => absurd hdigest ?_) false
        split_ifs with h
        · exact Option.isSome_iff_ne_none.1 h
        · exact Option.some_ne_none _

theorem keeps_digestFromLocal (op : IndexOperation) (found : Option DispatchResolution × Bool) :
    Keeps (Traced.Holds P) (Traced.Related (SameHome env)) (do
      match ← untraced (chain.localDigest env identifier found.1) with
      | some digest => pure (some digest)
      | none =>
        if chain.mode = .remote ∧ op = .query ∧ identifier.digest = none then
          chain.querySourcesManifestDigest identifier
        else
          match op with
          | .query => pure none
          | .resolve => (Option.map Prod.fst) <$> chain.walkChain env identifier !found.2) := by
  have hlocal : Keeps P (SameHome env) (chain.localDigest env identifier found.1) := by
    rcases found.1 with _ | ⟨content, index⟩ | content
    · exact .pure hP _
    · exact .pure hP _
    · exact .ite (fun _ => .pure hP _) fun _ =>
        (keeps_recoverAbsentDispatch hP hpolicy content).map _
  refine .bind hP.traced hlocal.untraced fun r => ?_
  cases r with
  | some digest => exact .pure hP.traced _
  | none =>
    refine .ite (fun _ => keeps_querySources hP _) fun _ => ?_
    cases op with
    | query => exact .pure hP.traced _
    | resolve => exact (keeps_walkChain hP hpolicy hroot _).map _

end Operations

theorem askPhysical_eq_none_iff {l : List (IndexSource × Bool)} {lastError : Option IndexError} :
    (∃ e, askPhysical identifier l lastError = .ok (none, e)) ↔
      ∀ c ∈ l, c.1.physicalReference identifier = .ok none ∨
        ∃ e, c.1.physicalReference identifier = .error e ∧ isSourceOutage e = true := by
  induction l generalizing lastError with
  | nil => simp [askPhysical]
  | cons c rest ih =>
    obtain ⟨source, authoritative⟩ := c
    rw [List.forall_mem_cons]
    unfold askPhysical
    rcases hanswer : source.physicalReference identifier with e | _ | physical
    · by_cases houtage : isSourceOutage e = true
      · simp [houtage, ih]
      · simp [houtage]
    · simp [ih]
    · simp

section Located

variable (hP : Frame P (SameHome env)) {routing : Routing}
include hP

omit hP in
theorem keeps_localPhysicalAnswer {P' : IndexState → Prop} {Q : IndexState → IndexState → Prop}
    (h : Leads P Q P' (SameHome env))
    (hroot : Keeps P Q
      (readRootByKind env identifier.registry identifier.repository (chain.kindFor identifier))) :
    Keeps P Q (chain.localPhysicalAnswer env routing identifier) := by
  have hread : Keeps P Q (chain.localPhysicalReference env routing identifier) := by
    refine .andThen h hroot fun root => ?_
    cases root with
    | none => exact .pure h.frame _
    | some root =>
      dsimp only
      split
      · exact .throw h.frame _
      · exact .pure h.frame _
  refine .andThen h hread.attempt fun r => ?_
  rcases r with e | _ | physical
  · exact .pure h.frame _
  · exact .pure h.frame _
  · exact .bind h.frame (.ofExcept h.frame _) fun _ => .pure h.frame _

theorem keeps_physicalReference
    (hroot : chain.ReadsLocalRoot identifier .physicalReference → RootKept env chain identifier P) :
    Keeps P (SameHome env) (chain.physicalReference env routing identifier) := by
  have hearly : Keeps P (SameHome env)
      (chain.localPhysicalAnswerWhen env routing (chain.mode ≠ .remote) identifier) :=
    .ite (fun h => keeps_localPhysicalAnswer hP.leads (hroot (.inl (of_decide_eq_true h))))
      fun _ => .pure hP _
  refine .bind hP hearly fun early => ?_
  cases early with
  | some physical => exact .pure hP _
  | none =>
    rcases hasked : askPhysical identifier (chain.candidateSources identifier) none with
      e | ⟨_ | physical, lastError⟩
    · intro s _
      exact .refl s
    · have hlate : Keeps P (SameHome env)
          (chain.localPhysicalAnswerWhen env routing (chain.mode = .remote) identifier) :=
        .ite (fun _ => keeps_localPhysicalAnswer hP.leads
          (hroot (.inr (askPhysical_eq_none_iff.1 ⟨lastError, hasked⟩)))) fun _ => .pure hP _
      intro s hs
      refine Keeps.bind hP hlate (fun late => ?_) s hs
      cases late with
      | some physical => exact .pure hP _
      | none => cases lastError <;> intro s _ <;> exact .refl s
    · intro s _
      exact .refl s

theorem keeps_perform (hpolicy : chain.writePolicy = .readOnly) (read : ViewRead)
    (hroot : chain.ReadsLocalRoot identifier read → RootKept env chain identifier P) :
    Keeps (Traced.Holds P) (Traced.Related (SameHome env))
      (chain.perform env routing identifier read) := by
  cases read with
  | fetchManifest op =>
    have hroot' := fun hdigest hmode => hroot ⟨hdigest, hmode⟩
    exact (Keeps.bind hP.traced (keeps_readLocal hP hroot' op).untraced fun found =>
      keeps_manifestFromLocal hP hpolicy hroot' op found).map _
  | fetchManifestDigest op =>
    have hroot' := fun hdigest hmode => hroot ⟨hdigest, hmode⟩
    exact (Keeps.bind hP.traced (keeps_readLocal hP hroot' op).untraced fun found =>
      keeps_digestFromLocal hP hpolicy hroot' op found).map _
  | listTags =>
    refine Keeps.map (.ite (fun _ => ?_) fun hmode => Keeps.untraced ?_) _
    · exact .consult hP (fun _ => .ofExcept hP _) (fun _ _ => .pure hP _)
        (fun _ => .pure hP _) _ _ _
    · refine .bind hP (hroot hmode) fun root => ?_
      cases root <;> exact .pure hP _
  | physicalReference => exact (keeps_physicalReference hP hroot).untraced.map _

end Located

/-! ### Reads that write the catalog -/

section Recovers

variable {routing : Routing}

/-- The state in which a read of the identifier's root writes its catalog. -/
def Recovering (env : IndexEnv) (identifier : PackageRef) (s : IndexState) : Prop :=
  Straddled env s identifier.registry identifier.repository ∧
    RecoveryReadsBack env s identifier.registry identifier.repository

/-- From such a state the computation writes the catalog. -/
def Recovers {α : Type} (env : IndexEnv) (identifier : PackageRef) (x : LocalM α) : Prop :=
  Keeps (Recovering env identifier) (Recovered env identifier.registry identifier.repository) x

theorem recovered_trans {s'' : IndexState} (h : Recovered env source repository s s')
    (h' : SameHome env s' s'') : Recovered env source repository s s'' := by
  refine ⟨?_, fun hs => h.2 (h'.straddled hs)⟩
  rw [h'.files _ rfl]
  exact h.1

theorem leads_recovered : Leads (Recovering env identifier)
    (Recovered env identifier.registry identifier.repository)
    (RootSettled env identifier.registry identifier.repository .published) (SameHome env) :=
  ⟨frame_settled, fun _ h _ => h.2, recovered_trans⟩

variable (hkind : chain.kindFor identifier = .published)
include hkind

theorem recovered_readRootByKind :
    Recovers env identifier
      (readRootByKind env identifier.registry identifier.repository
        (chain.kindFor identifier)) := by
  rw [hkind]
  exact readRootByKind_straddled

theorem settled_readRootByKind :
    Keeps (RootSettled env identifier.registry identifier.repository .published) (SameHome env)
      (readRootByKind env identifier.registry identifier.repository
        (chain.kindFor identifier)) := by
  rw [hkind]
  exact readRootByKind_settled

theorem recovered_readLocal (op : IndexOperation) (hdigest : identifier.digest = none)
    (hmode : chain.mode ≠ .remote) :
    Recovers env identifier (chain.readLocal env identifier op) := by
  unfold readLocal
  rw [if_pos (by simp [hmode])]
  refine .andThen leads_recovered (keeps_resolveRoot leads_recovered hdigest
    (recovered_readRootByKind hkind)).attempt fun r => ?_
  cases r with
  | ok resolution => exact .pure frame_settled _
  | error e =>
    exact .ite (fun _ => .throw frame_settled _) fun _ =>
      .ite (fun _ => .throw frame_settled _) fun _ => .pure frame_settled _

theorem recovered_localPhysicalAnswer :
    Recovers env identifier (chain.localPhysicalAnswer env routing identifier) :=
  keeps_localPhysicalAnswer leads_recovered (recovered_readRootByKind hkind)

theorem recovered_physicalReference
    (hreads : chain.ReadsLocalRoot identifier .physicalReference) :
    Recovers env identifier (chain.physicalReference env routing identifier) := by
  by_cases hmode : chain.mode = .remote
  · -- the sources are asked first, and none of them ends the read
    obtain ⟨lastError, hasked⟩ := askPhysical_eq_none_iff.2 (hreads.resolve_left (· hmode))
    have hlate : Recovers env identifier
        (chain.localPhysicalAnswerWhen env routing (chain.mode = .remote) identifier) := by
      unfold localPhysicalAnswerWhen
      rw [if_pos (decide_eq_true hmode)]
      exact recovered_localPhysicalAnswer hkind
    have hearly : chain.localPhysicalAnswerWhen env routing (chain.mode ≠ .remote) identifier =
        pure none := by
      unfold localPhysicalAnswerWhen
      rw [if_neg (by simp [hmode])]
    intro s hs
    unfold physicalReference
    rw [hearly, hasked]
    refine Keeps.andThen leads_recovered hlate (fun late => ?_) s hs
    cases late with
    | some physical => exact .pure frame_settled _
    | none => cases lastError <;> intro s _ <;> exact .refl s
  · have hearly : Recovers env identifier
        (chain.localPhysicalAnswerWhen env routing (chain.mode ≠ .remote) identifier) := by
      unfold localPhysicalAnswerWhen
      rw [if_pos (decide_eq_true hmode)]
      exact recovered_localPhysicalAnswer hkind
    refine .andThen leads_recovered hearly fun early => ?_
    cases early with
    | some physical => exact .pure frame_settled _
    | none =>
      refine .bind frame_settled (.ofExcept frame_settled _) fun asked => ?_
      obtain ⟨_ | physical, lastError⟩ := asked
      · have hlate : Keeps (RootSettled env identifier.registry identifier.repository .published)
            (SameHome env)
            (chain.localPhysicalAnswerWhen env routing (chain.mode = .remote) identifier) :=
          .ite (fun _ => keeps_localPhysicalAnswer frame_settled.leads
            (settled_readRootByKind hkind))
            fun _ => .pure frame_settled _
        refine .bind frame_settled hlate fun late => ?_
        cases late with
        | some physical => exact .pure frame_settled _
        | none => cases lastError <;> intro s _ <;> exact .refl s
      · exact .pure frame_settled _

/-- **A read that comes to a straddled root writes the catalog.** -/
theorem recovered_perform (hpolicy : chain.writePolicy = .readOnly) (read : ViewRead)
    (hreads : chain.ReadsLocalRoot identifier read) :
    Keeps (Traced.Holds (Recovering env identifier))
      (Traced.Related (Recovered env identifier.registry identifier.repository))
      (chain.perform env routing identifier read) := by
  have hroot := @settled_readRootByKind env _ _ hkind
  cases read with
  | fetchManifest op =>
    exact (Keeps.andThen leads_recovered.traced
      (recovered_readLocal hkind op hreads.1 hreads.2).untraced fun found =>
      keeps_manifestFromLocal frame_settled hpolicy (fun _ _ => hroot) op found).map _
  | fetchManifestDigest op =>
    exact (Keeps.andThen leads_recovered.traced
      (recovered_readLocal hkind op hreads.1 hreads.2).untraced fun found =>
      keeps_digestFromLocal frame_settled hpolicy (fun _ _ => hroot) op found).map _
  | listTags =>
    refine Keeps.map ?_ _
    unfold ChainedIndex.listTags
    rw [if_neg hreads]
    refine Keeps.untraced
      (Keeps.andThen leads_recovered (recovered_readRootByKind hkind) fun root => ?_)
    cases root <;> exact .pure frame_settled _
  | physicalReference => exact (recovered_physicalReference hkind hreads).untraced.map _

end Recovers

theorem readsLocalRoot_readOnly {read : ViewRead} :
    chain.readOnly.ReadsLocalRoot identifier read ↔ chain.ReadsLocalRoot identifier read := by
  cases read <;> exact Iff.rfl

/-- **What a read-only view leaves alone.** A read of a read-only view leaves all files of the index
home as they are, unless it comes to the local root of a published source, the root document is
readable, and the catalog has another entry for it or none: then it writes the catalog. -/
theorem readOnly_leaves_index_iff (env : IndexEnv) (chain : ChainedIndex) (routing : Routing)
    (identifier : PackageRef) (read : ViewRead) (t : Traced IndexState)
    (hcodec : RecoveryReadsBack env t.state identifier.registry identifier.repository) :
    (∀ f : IndexFile, f.inIndexHome = true →
      (runAt (chain.readOnly.perform env routing identifier read) t).2.state.files f =
        t.state.files f) ↔
      ¬ (chain.ReadsLocalRoot identifier read ∧ chain.kindFor identifier = .published ∧
        Straddled env t.state identifier.registry identifier.repository) := by
  have hpolicy : chain.readOnly.writePolicy = .readOnly := rfl
  constructor
  · rintro hsame ⟨hreads, hkind, hstraddled⟩
    have hkind' : chain.readOnly.kindFor identifier = .published := hkind
    exact (recovered_perform hkind' hpolicy read (readsLocalRoot_readOnly.2 hreads) t
      ⟨hstraddled, hcodec⟩).1 (hsame _ rfl)
  · intro hquiet
    by_cases hreads : chain.ReadsLocalRoot identifier read
    · -- the root is read, but its catalog entry is not stale
      exact (keeps_perform frame_settled hpolicy read (fun _ => readRootByKind_settled) t
        fun hkind hstraddled => hquiet ⟨hreads, hkind, hstraddled⟩).files
    · exact (keeps_perform frame_true hpolicy read
        (fun h => absurd (readsLocalRoot_readOnly.1 h) hreads) t trivial).files

/-! ### A read that writes -/

/-- A published source that has nothing. -/
def publishedSource : IndexSource where
  jurisdiction _ := .authoritative
  servesRegistry _ := true
  sourceKind := .published
  indexBaseUrl := none
  listTags _ := .ok none
  fetchManifest _ := .ok none
  fetchManifestDigest _ := .ok none
  fetchManifestRawBytes _ := .ok none
  fetchBlob _ := .ok none
  fetchRootDocument _ := .ok none
  revalidateRootDocument _ := .ok none

def publishedChain : ChainedIndex where
  sources := [publishedSource]
  mode := .default
  writePolicy := .full
  contentStore := true
  allowYanked := false

/-- Nothing is rewritten. -/
def plainRouting : Routing where
  parseRepositoryPointer _ := none
  guardDestination _ _ := .ok ()

/-- The catalog of the example once its entry is there. -/
def cmakeCatalog : CatalogIndex :=
  (∅ : CatalogIndex).insert "cmake" (Digest.mk .sha256 "c0ffee").toString

/-- Bytes `[0]` are a root, and bytes `[5]` the catalog with its entry. -/
def cmakeEnv : IndexEnv where
  hash algorithm _ := ⟨algorithm, "c0ffee"⟩
  parseManifest _ := none
  parseImageIndex _ := none
  docs.parse _ := none
  docs.readRoot bytes :=
    if bytes = [0] then some ⟨"oci://ghcr.io/cmake", ∅, none, none, none⟩ else none
  docs.write _ := []
  parseConfig _ := none
  parseCatalog bytes := if bytes = [5] then some ⟨1, cmakeCatalog⟩ else none
  serializeCatalog catalog := if catalog = cmakeCatalog then [5] else []
  newConfig := []
  parseDerivedRoot _ := none
  serializeDerivedRoot _ := []
  now := ""
  wellFormedPointer _ := true
  contained _ := true
  fault _ := none

/-- The root of `cmake` is there, and the catalog is the file given. -/
def cmakeState (catalog : FileState) : IndexState where
  files
    | .root "ocx.sh" "cmake" => .content [0]
    | .catalog "ocx.sh" => catalog
    | _ => .absent
  gatedSources := []

/-- A tag of the package. -/
def cmakeRef : PackageRef := ⟨"ocx.sh", "cmake", some "3.28", none⟩

/-- A read by digest leaves the index home as it is, although the catalog entry is missing. -/
theorem readOnly_digest_leaves_stale :
    Straddled cmakeEnv (cmakeState .absent) "ocx.sh" "cmake" ∧
      ∀ f : IndexFile, f.inIndexHome = true →
        (runAt (publishedChain.readOnly.perform cmakeEnv plainRouting
          { cmakeRef with digest := some ⟨.sha256, "aa"⟩ } (.fetchManifest .resolve))
            ⟨cmakeState .absent, []⟩).2.state.files f = (cmakeState .absent).files f := by
  have hwritten : (∅ : CatalogIndex).insert "cmake" (rootCatalogEntry cmakeEnv [0]) =
      cmakeCatalog := rfl
  refine ⟨⟨.inr ⟨rfl, .inl (by decide)⟩, [0], ∅, rfl, rfl, by decide, ⟨_, rfl⟩,
    .inl ⟨by decide, rfl⟩, by simp, rfl⟩, ?_⟩
  refine (readOnly_leaves_index_iff cmakeEnv publishedChain plainRouting
    { cmakeRef with digest := some ⟨.sha256, "aa"⟩ } (.fetchManifest .resolve)
    ⟨cmakeState .absent, []⟩ fun document catalog hstale => ?_).2 ?_
  · obtain rfl : [0] = document := FileState.content.inj hstale.document_content
    obtain ⟨-, rfl⟩ | ⟨bytes, hbytes, -⟩ := hstale.catalog_reads
    · show cmakeEnv.parseCatalog (cmakeEnv.serializeCatalog (Std.ExtTreeMap.insert ∅ "cmake"
        (rootCatalogEntry cmakeEnv [0]))) = some ⟨_, Std.ExtTreeMap.insert ∅ "cmake" _⟩
      rw [hwritten]
      simp [cmakeEnv, supportedFormatVersion]
    · have habsent : (cmakeState .absent).files (.catalog "ocx.sh") = .absent := by decide
      cases habsent.symm.trans hbytes
  · rintro ⟨⟨hdigest, -⟩, -⟩
    cases hdigest

/-- **A read-only view that writes.** Listing the tags of a package whose catalog entry is missing
writes the catalog. -/
theorem readOnly_listTags_writes_catalog :
    (cmakeState .absent).files (.catalog "ocx.sh") = .absent ∧
      (runAt (publishedChain.readOnly.perform cmakeEnv plainRouting cmakeRef .listTags)
        ⟨cmakeState .absent, []⟩).2.state.files (.catalog "ocx.sh") = .content [5] := by
  decide +kernel

end ChainedIndex

end Ocx
