import Ocx.Index.Local

/-!
# What the read of a root writes

The catalog of a published source has an entry for each root document.  A read of the root that
finds the entry missing, or at odds with the document, writes the catalog anew.

States are compared by what lies in the index home (`SameHome`); all other reads of the local index
keep that.
-/

namespace Ocx

open List Option

open Function

variable {document : Bytes} {catalog : CatalogIndex}

/-- The file lies in the index home. Blobs lie in the blob store. -/
def IndexFile.inIndexHome : IndexFile → Bool
  | .blob _ _ => false
  | _ => true

variable (env : IndexEnv)

/-! ### Stale catalog entries -/

/-- The format version of the source was checked, or passes the check. -/
def FormatAccepted (s : IndexState) (source : String) : Prop :=
  source ∈ s.gatedSources ∨
    env.contained (slugify source) = true ∧
      (s.files (.config (slugify source)) = .absent ∨
        ∃ bytes, s.files (.config (slugify source)) = .content bytes ∧
          env.parseConfig bytes = some supportedFormatVersion)

/-- The catalog of the source is readable; an absent one is empty. -/
def CatalogReads (s : IndexState) (source : String) (catalog : CatalogIndex) : Prop :=
  (s.files (.catalog (slugify source)) = .absent ∧ catalog = ∅) ∨
    ∃ bytes, s.files (.catalog (slugify source)) = .content bytes ∧
      env.parseCatalog bytes = some ⟨supportedFormatVersion, catalog⟩

/-- The root document is readable, and the catalog has another entry for it, or none. -/
structure StaleEntry (s : IndexState) (source repository : String) (document : Bytes)
    (catalog : CatalogIndex) : Prop where
  /-- The directory of the source is in the index home. -/
  source_contained : env.contained (slugify source) = true
  /-- The path of the repository is in the index home. -/
  repository_contained : env.contained repository = true
  document_content : s.files (.root (slugify source) repository) = .content document
  /-- It is a root with a well-formed pointer. -/
  document_parses : ∃ root, parseRootDocument env source repository document = .ok root
  catalog_reads : CatalogReads env s source catalog
  stale : catalog[repository]? ≠ some (rootCatalogEntry env document)
  /-- The catalog can be written. -/
  writable : env.fault (.catalog (slugify source)) = none

/-- A read of the published root would write the catalog. -/
def Straddled (s : IndexState) (source repository : String) : Prop :=
  FormatAccepted env s source ∧ ∃ document catalog,
    StaleEntry env s source repository document catalog

/-- The catalog that a read of the published root would write is read back as it is written. -/
def RecoveryReadsBack (s : IndexState) (source repository : String) : Prop :=
  ∀ document catalog, StaleEntry env s source repository document catalog →
    let written := catalog.insert repository (rootCatalogEntry env document)
    env.parseCatalog (env.serializeCatalog written) = some ⟨supportedFormatVersion, written⟩

/-- The states agree on the files of the index home, and on the sources that pass the format
check. -/
structure SameHome (s s' : IndexState) : Prop where
  files : ∀ f : IndexFile, f.inIndexHome = true → s'.files f = s.files f
  /-- The format check agrees. -/
  accepted : ∀ source, FormatAccepted env s source ↔ FormatAccepted env s' source

variable {env} {s s' : IndexState} {source repository : String}

theorem SameHome.refl (s : IndexState) : SameHome env s s := ⟨fun _ _ => rfl, fun _ => Iff.rfl⟩

theorem SameHome.trans {s'' : IndexState} (h : SameHome env s s') (h' : SameHome env s' s'') :
    SameHome env s s'' :=
  ⟨fun f hf => (h'.files f hf).trans (h.files f hf),
    fun source => (h.accepted source).trans (h'.accepted source)⟩

theorem SameHome.staleEntry (h : SameHome env s s')
    (hstale : StaleEntry env s' source repository document catalog) :
    StaleEntry env s source repository document catalog := by
  obtain ⟨hsource, hrepository, hdocument, hparses, hreads, hne, hwritable⟩ := hstale
  rw [h.files _ rfl] at hdocument
  unfold CatalogReads at hreads
  rw [h.files _ rfl] at hreads
  exact ⟨hsource, hrepository, hdocument, hparses, hreads, hne, hwritable⟩

theorem SameHome.straddled (h : SameHome env s s') (hs : Straddled env s' source repository) :
    Straddled env s source repository := by
  obtain ⟨haccepted, document, catalog, hstale⟩ := hs
  exact ⟨(h.accepted source).2 haccepted, document, catalog, h.staleEntry hstale⟩

theorem SameHome.of_files (hfiles : ∀ f : IndexFile, f.inIndexHome = true → s'.files f = s.files f)
    (hgated : s'.gatedSources = s.gatedSources) : SameHome env s s' := by
  refine ⟨hfiles, fun source => ?_⟩
  unfold FormatAccepted
  rw [hfiles _ rfl, hgated]

/-! ### What the reads of documents return -/

theorem gateFormatVersion_eq_ok_iff {version : ℕ} :
    gateFormatVersion version = .ok () ↔ version = supportedFormatVersion := by
  unfold gateFormatVersion
  split <;> simp_all

theorem catalogReads_iff :
    env.contained (slugify source) = true ∧ CatalogReads env s source catalog ↔
      ∃ read, runAt (readSourceCatalog env source) s = (.ok read, s) ∧ read.getD ∅ = catalog := by
  unfold readSourceCatalog CatalogReads
  simp only [runAt_bind, runAt_ensureSourceContained]
  by_cases hsource : env.contained (slugify source) = true
  · simp only [hsource, if_true, runAt_readFile, true_and]
    cases hfile : s.files (.catalog (slugify source)) with
    | absent => simp [eq_comm]
    | unreadable => simp
    | content bytes =>
      cases hparse : env.parseCatalog bytes with
      | none => simp [hparse]
      | some found =>
        obtain ⟨version, packages⟩ := found
        by_cases hversion : version = supportedFormatVersion
        · simp [hparse, hversion, gateFormatVersion, Except.map]
        · simp [hparse, hversion, gateFormatVersion, Except.map]
  · simp [hsource]

/-! ### The format check -/

theorem runAt_readSourceConfig_eq_ok_iff :
    (∃ version, runAt (readSourceConfig env source) s = (.ok version, s) ∧
      gateFormatVersion (version.getD supportedFormatVersion) = .ok ()) ↔
      env.contained (slugify source) = true ∧
        (s.files (.config (slugify source)) = .absent ∨
          ∃ bytes, s.files (.config (slugify source)) = .content bytes ∧
            env.parseConfig bytes = some supportedFormatVersion) := by
  unfold readSourceConfig
  simp only [runAt_bind, runAt_ensureSourceContained, gateFormatVersion_eq_ok_iff]
  by_cases hsource : env.contained (slugify source) = true
  · simp only [hsource, if_true, runAt_readFile, true_and]
    cases hfile : s.files (.config (slugify source)) with
    | absent => simp
    | unreadable => simp
    | content bytes => cases hparse : env.parseConfig bytes <;> simp [hparse]
  · simp [hsource]

theorem runAt_checkFormatVersion :
    (FormatAccepted env s source ∧ ∃ gated,
        runAt (checkFormatVersion env source) s = (.ok (), { s with gatedSources := gated }) ∧
          ∀ other, other ∈ gated ↔ other ∈ s.gatedSources ∨ other = source) ∨
      (¬ FormatAccepted env s source ∧
        ∃ e, runAt (checkFormatVersion env source) s = (.error e, s)) := by
  unfold checkFormatVersion
  rw [runAt_bind, runAt_get]
  dsimp only
  by_cases hmem : source ∈ s.gatedSources
  · refine .inl ⟨.inl hmem, s.gatedSources, by simp [hmem], fun other => ?_⟩
    constructor
    · exact .inl
    · rintro (h | rfl)
      exacts [h, hmem]
  · rw [if_neg hmem, runAt_bind]
    have hstate : s = (runAt (readSourceConfig env source) s).2 :=
      keeps_eq_readSourceConfig s trivial
    have hiff := @runAt_readSourceConfig_eq_ok_iff env s source
    rcases hrun : runAt (readSourceConfig env source) s with ⟨r, s'⟩
    rw [hrun] at hstate hiff
    subst hstate
    cases r with
    | error e =>
      refine .inr ⟨?_, e, rfl⟩
      rintro (h | h)
      · exact hmem h
      · obtain ⟨version, hversion, -⟩ := hiff.2 h
        simp at hversion
    | ok version =>
      dsimp only
      cases hgate : gateFormatVersion (version.getD supportedFormatVersion) with
      | error e =>
        refine .inr ⟨?_, e, rfl⟩
        rintro (h | h)
        · exact hmem h
        · obtain ⟨version', hversion, hok⟩ := hiff.2 h
          simp only [Prod.mk.injEq, Except.ok.injEq, and_true] at hversion
          rw [← hversion, hgate] at hok
          cases hok
      | ok _ =>
        refine .inl ⟨.inr (hiff.1 ⟨version, rfl, hgate⟩), source :: s.gatedSources, rfl,
          fun other => ?_⟩
        rw [mem_cons, or_comm]

theorem sameHome_checkFormatVersion :
    SameHome env s (runAt (checkFormatVersion env source) s).2 := by
  obtain ⟨haccepted, gated, hrun, hgated⟩ | ⟨-, e, hrun⟩ :=
    @runAt_checkFormatVersion env s source
  · rw [hrun]
    refine ⟨fun f _ => rfl, fun other => ?_⟩
    unfold FormatAccepted
    rw [hgated]
    by_cases hother : other = source
    · subst hother
      exact ⟨fun _ => .inl (.inr rfl), fun _ => haccepted⟩
    · simp [hother]
  · rw [hrun]
    exact .refl s

/-! ### The read of a published root -/

/-- The state after the entry of a root was written anew. -/
def recoverEntry (env : IndexEnv) (s : IndexState) (source repository : String) (document : Bytes)
    (catalog : CatalogIndex) : IndexState :=
  let written := catalog.insert repository (rootCatalogEntry env document)
  { s with
    files := update s.files (.catalog (slugify source)) (.content (env.serializeCatalog written)) }

/-- **A stale entry is written anew by the read.** -/
theorem readRoot_of_staleEntry
    (h : StaleEntry env s source repository document catalog) :
    (runAt (readRoot env source repository) s).2 =
      recoverEntry env s source repository document catalog := by
  obtain ⟨root, hparse⟩ := h.document_parses
  have hinner := runAt_readRootInner_eq_some_iff.2
    ⟨h.source_contained, h.repository_contained, h.document_content, hparse⟩
  obtain ⟨read, hcatalog, hread⟩ := catalogReads_iff.1 ⟨h.source_contained, h.catalog_reads⟩
  have hpersist : runAt (persistRecoveredCatalogEntry env source repository (document, root)) s =
      (.ok (document, root), recoverEntry env s source repository document catalog) := by
    unfold persistRecoveredCatalogEntry
    rw [runAt_bind_ok hcatalog, runAt_bind_ok hinner]
    dsimp only [getD_some]
    rw [hread, if_neg h.stale]
    unfold writeFile
    rw [h.writable]
    rfl
  unfold readRoot
  rw [runAt_bind_ok hinner]
  rw [runAt_bind_ok hcatalog, hread, if_neg h.stale, runAt_bind, runAt_attempt, hpersist]
  rfl

/-- Without a stale entry, the read does not change the state. -/
theorem readRoot_of_fresh
    (h : ∀ document catalog, ¬ StaleEntry env s source repository document catalog) :
    (runAt (readRoot env source repository) s).2 = s := by
  have hinner : s = (runAt (readRootInner env source repository) s).2 :=
    keeps_eq_readRootInner s trivial
  have hcatalog : s = (runAt (readSourceCatalog env source) s).2 :=
    keeps_eq_readSourceCatalog s trivial
  unfold readRoot
  rcases hrun : runAt (readRootInner env source repository) s with ⟨r, s'⟩
  rw [hrun] at hinner
  subst hinner
  rcases r with e | _ | ⟨document, root⟩
  · rw [runAt_bind_error hrun]
  · rw [runAt_bind_ok hrun]
    rfl
  rw [runAt_bind_ok hrun]
  rcases hrun' : runAt (readSourceCatalog env source) s with ⟨r, s'⟩
  rw [hrun'] at hcatalog
  subst hcatalog
  cases r with
  | error e => rw [runAt_bind_error hrun']
  | ok read =>
    rw [runAt_bind_ok hrun']
    split
    · rfl
    · rename_i hne
      -- the entry disagrees, so that only a write that fails is left
      obtain ⟨hsource, hrepository, hcontent, hparse⟩ := runAt_readRootInner_eq_some_iff.1 hrun
      have hreads := catalogReads_iff.2 ⟨read, hrun', rfl⟩
      have hpersist :
          (runAt (persistRecoveredCatalogEntry env source repository (document, root)) s).2 =
            s := by
        unfold persistRecoveredCatalogEntry
        rw [runAt_bind_ok hrun', runAt_bind_ok hrun]
        dsimp only [getD_some]
        rw [if_neg hne]
        cases hfault : env.fault (.catalog (slugify source)) with
        | some e =>
          unfold writeFile
          rw [hfault]
          rfl
        | none =>
          exact absurd ⟨hsource, hrepository, hcontent, ⟨root, hparse⟩, hreads.2, hne, hfault⟩
            (h document (read.getD ∅))
      rw [runAt_bind, runAt_attempt, hpersist]
      dsimp only
      split <;> rfl

variable {kind : SourceKind}

/-- No read of the root writes the catalog. -/
def RootSettled (env : IndexEnv) (source repository : String) (kind : SourceKind) (s : IndexState) :
    Prop :=
  kind = .published → ¬ Straddled env s source repository

/-- The catalog of the source was written, and no further read writes it. -/
def Recovered (env : IndexEnv) (source repository : String) (s s' : IndexState) : Prop :=
  s'.files (.catalog (slugify source)) ≠ s.files (.catalog (slugify source)) ∧
    ¬ Straddled env s' source repository

theorem frame_true : Frame (fun _ => True) (SameHome env) :=
  ⟨.refl, .trans, fun _ h => h⟩

theorem frame_settled : Frame (RootSettled env source repository kind) (SameHome env) :=
  ⟨.refl, .trans, fun h hs hkind hstraddled => hs hkind (h.straddled hstraddled)⟩

theorem readRootByKind_settled :
    Keeps (RootSettled env source repository kind) (SameHome env)
      (readRootByKind env source repository kind) := by
  intro s hs
  have hcheck : SameHome env s (runAt (checkFormatVersion env source) s).2 :=
    sameHome_checkFormatVersion
  unfold readRootByKind
  obtain ⟨haccepted, gated, hrun, -⟩ | ⟨-, e, hrun⟩ :=
    @runAt_checkFormatVersion env s source
  · rw [runAt_bind_ok hrun]
    rw [hrun] at hcheck
    refine hcheck.trans ?_
    cases kind with
    | derived =>
      have hread : Keeps (fun _ => True) Eq (readRootUncatalogued env source repository) := by
        refine .bind frame_eq keeps_eq_readRootInner fun read => ?_
        cases read <;> exact .pure frame_eq _
      rw [← hread _ trivial]
      exact .refl _
    | published =>
      have hfresh : ∀ document catalog,
          ¬ StaleEntry env { s with gatedSources := gated } source repository document catalog :=
        fun document catalog hstale =>
          hs rfl ⟨haccepted, document, catalog, hcheck.staleEntry hstale⟩
      rw [readRoot_of_fresh hfresh]
      exact .refl _
  · rw [runAt_bind_error hrun]
    exact .refl s

/-- **The read of a straddled root writes its catalog.** -/
theorem readRootByKind_straddled :
    Keeps (fun s => Straddled env s source repository ∧ RecoveryReadsBack env s source repository)
      (Recovered env source repository) (readRootByKind env source repository .published) := by
  rintro s ⟨⟨haccepted, document, catalog, hstale⟩, hreadsBack⟩
  have hcodec := hreadsBack document catalog hstale
  unfold readRootByKind
  obtain ⟨-, gated, hrun, -⟩ | ⟨hrefused, -⟩ :=
    @runAt_checkFormatVersion env s source
  swap
  · exact absurd haccepted hrefused
  rw [runAt_bind_ok hrun]
  have hstale' :
      StaleEntry env { s with gatedSources := gated } source repository document catalog :=
    { hstale with }
  rw [readRoot_of_staleEntry hstale', recoverEntry]
  refine ⟨?_, ?_⟩
  · -- what was written reads back with the entry, and what was there did not have it
    dsimp only
    rw [update_self]
    obtain ⟨habsent, -⟩ | ⟨bytes, hbytes, hparse⟩ := hstale.catalog_reads
    · rw [habsent]
      exact FileState.noConfusion
    · rw [hbytes]
      intro heq
      rw [← FileState.content.inj heq, hcodec] at hparse
      have hcatalog := congrArg CatalogDocument.packages (some.inj hparse)
      apply hstale.stale
      rw [← show catalog.insert repository (rootCatalogEntry env document) = catalog from hcatalog]
      exact Std.ExtTreeMap.getElem?_insert_self
  · rintro ⟨-, document', catalog', hagain⟩
    have hdocument := hagain.document_content
    dsimp only at hdocument
    rw [update_of_ne (by simp), hstale.document_content] at hdocument
    have hreads := hagain.catalog_reads
    unfold CatalogReads at hreads
    simp only [update_self, reduceCtorEq, false_and, false_or, FileState.content.injEq,
      exists_eq_left', hcodec, some.injEq, CatalogDocument.mk.injEq, true_and] at hreads
    apply hagain.stale
    rw [← hreads, ← FileState.content.inj hdocument]
    exact Std.ExtTreeMap.getElem?_insert_self

end Ocx
