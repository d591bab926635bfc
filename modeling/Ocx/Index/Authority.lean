import Ocx.Index.Pins

/-!
# Authoritative sources cannot be bypassed

A source that is authoritative for an identifier has the last word on it: once it was asked and
answered with a miss or a failure, no later source may be listened to.  Otherwise a registry that
serves the same name could get around a refusal of the index.

Tag listings and the walk of a resolve stop at both.  The other reads of a chained index, which are
written as the same loop, stop at a miss only: they remember the failure of an authoritative source
and go on.  `ChainedIndex.respectsAuthority_iff` says for every read exactly when that matters.
-/

namespace Ocx

inductive ChainedRead
  | listTags (identifier : PackageRef)
  | fetchManifest (identifier : PackageRef) (op : IndexOperation)
  | fetchManifestDigest (identifier : PackageRef) (op : IndexOperation)
  | fetchBlob (blobRef : PinnedPackageRef)
  | fetchManifestRawBytes (identifier : PackageRef)

/-- What a read returns. -/
inductive ChainedData
  | tags (tags : List String)
  | manifest (head : Digest × Manifest)
  | digest (digest : Digest)
  | blob (bytes : Bytes)
  | rawManifest (answer : Bytes × Digest × Manifest)

/-- No data once an authoritative source was asked and declined. -/
def Respects {α : Type} (x : ChainM (Option α)) (s : IndexState) : Prop :=
  (∃ r ∈ (runAt x ⟨s, []⟩).2.requests, r.Declined) → ∀ a, (runAt x ⟨s, []⟩).1 ≠ .ok (some a)

/-! ### Composing reads -/

section Respects

variable {α β : Type} {x : ChainM (Option α)} {s s' : IndexState}

theorem respects_map (f : α → β) : Respects (Option.map f <$> x) s ↔ Respects x s := by
  unfold Respects
  rw [runAt_map]
  refine imp_congr_right fun _ => ?_
  cases (runAt x ⟨s, []⟩).1 with
  | error e => simp [Except.map]
  | ok found => cases found <;> simp [Except.map]

theorem respects_of_requests_eq_nil (h : (runAt x ⟨s, []⟩).2.requests = []) : Respects x s := by
  rintro ⟨r, hr, -⟩
  rw [h] at hr
  simp at hr

theorem respects_pure (a : Option α) : Respects (pure a) s :=
  respects_of_requests_eq_nil rfl

theorem respects_untraced (y : LocalM (Option α)) : Respects (untraced y) s :=
  respects_of_requests_eq_nil rfl

theorem respects_bind_ok {y : LocalM β} {b : β} (h : runAt y s = (.ok b, s'))
    (k : β → ChainM (Option α)) : Respects (untraced y >>= k) s ↔ Respects (k b) s' := by
  have huntraced : runAt (untraced y) ⟨s, []⟩ = (.ok b, ⟨s', []⟩) := by rw [runAt_untraced, h]
  unfold Respects
  rw [runAt_bind_ok huntraced]

theorem respects_bind_error {y : LocalM β} {e : IndexError} (h : runAt y s = (.error e, s'))
    (k : β → ChainM (Option α)) : Respects (untraced y >>= k) s := by
  have huntraced : runAt (untraced y) ⟨s, []⟩ = (.error e, ⟨s', []⟩) := by rw [runAt_untraced, h]
  refine respects_of_requests_eq_nil ?_
  rw [runAt_bind_error huntraced]

theorem respects_bind {y : LocalM β} {k : β → ChainM (Option α)} (h : ∀ b s', Respects (k b) s') :
    Respects (untraced y >>= k) s := by
  rcases hy : runAt y s with ⟨r, s'⟩
  cases r with
  | error e => exact respects_bind_error hy k
  | ok b => exact (respects_bind_ok hy k).2 (h b s')

theorem respects_ite_iff {c bypassed : Prop} [Decidable c] {y : ChainM (Option α)}
    (hx : Respects x s) (hy : Respects y s ↔ ¬ bypassed) :
    Respects (if c then x else y) s ↔ ¬ (¬ c ∧ bypassed) := by
  by_cases hc : c <;> simp [hc, hx, hy]

end Respects

namespace ChainedIndex

variable (env : IndexEnv) (chain : ChainedIndex)

def read : ChainedRead → ChainM (Option ChainedData)
  | .listTags identifier => Option.map .tags <$> chain.listTags env identifier
  | .fetchManifest identifier op => Option.map .manifest <$> chain.fetchManifest env identifier op
  | .fetchManifestDigest identifier op =>
    Option.map .digest <$> chain.fetchManifestDigest env identifier op
  | .fetchBlob blobRef => Option.map .blob <$> chain.fetchBlob env blobRef
  | .fetchManifestRawBytes identifier =>
    Option.map .rawManifest <$> chain.fetchManifestRawBytes identifier

/-- The blob store can be read, and has no intact copy of the blob. -/
def LacksBlob (s : IndexState) (blobRef : PinnedPackageRef) : Prop :=
  chain.contentStore = true →
    match s.files (blobFile blobRef.ref.registry blobRef.digest) with
    | .absent => True
    | .unreadable => False
    | .content bytes => digestMatches env bytes blobRef.digest = false

/-- A source is listened to although an authoritative source failed before it: the read gets to the
sources, does not stop at failures, and finds an answer behind a failed authoritative source. -/
def Bypasses (s : IndexState) : ChainedRead → Prop
  | .listTags _ => False
  | .fetchManifest _ .resolve => False
  | .fetchManifest identifier .query =>
    (chain.mode = .remote ∧ identifier.digest = none) ∧
      Bypassed (fun source => source.fetchManifest identifier) (fun _ => True)
        (chain.candidateSources identifier)
  | .fetchManifestDigest _ .resolve => False
  | .fetchManifestDigest identifier .query =>
    (chain.mode = .remote ∧ identifier.digest = none) ∧
      Bypassed (fun source => source.fetchManifestDigest identifier) (fun _ => True)
        (chain.candidateSources identifier)
  | .fetchBlob blobRef =>
    (chain.mode ≠ .offline ∧ chain.LacksBlob env s blobRef) ∧
      Bypassed (fun source => source.fetchBlob blobRef)
        (fun bytes => digestMatches env bytes blobRef.digest = true)
        (chain.candidateSources blobRef.ref)
  | .fetchManifestRawBytes identifier =>
    chain.mode ≠ .offline ∧
      Bypassed (fun source => source.fetchManifestRawBytes identifier) (fun _ => True)
        (chain.candidateSources identifier)

/-- No data once an authoritative source was asked and declined. -/
def RespectsAuthority (s : IndexState) (read : ChainedRead) : Prop :=
  Respects (chain.read env read) s

end ChainedIndex

namespace ChainedIndex

variable {env : IndexEnv} {chain : ChainedIndex} {s : IndexState} {identifier : PackageRef}

/-! ### Reads that stop at failures -/

theorem respects_consult {α β : Type} {σ : Type*} (ask : σ → LocalM (Option α))
    (onHit : σ → α → LocalM β) (onStop : σ → LocalM PUnit) (l : List (σ × Bool)) :
    Respects (consult true ask onHit onStop l none) s := by
  obtain ⟨new, hnew, hrespects⟩ := @consult_respects _ _ _ _ _ ask onHit onStop none ⟨s, []⟩ l
  intro hdeclined
  rw [hnew] at hdeclined
  exact hrespects hdeclined

theorem respects_listTags : Respects (chain.listTags env identifier) s := by
  unfold listTags
  split
  · exact respects_consult _ _ _ _
  · exact respects_untraced _

theorem respects_walkChain (growRoot : Bool) :
    Respects (chain.walkChain env identifier growRoot) s := by
  refine respects_bind fun _ s' => ?_
  split
  · exact respects_pure _
  · intro hdeclined a h
    generalize (if identifier.digest.isSome = true then identifier
      else identifier.cloneWithTag identifier.tagOrLatest) = walked at hdeclined h
    have hwalk : Respects (chain.fetchAndPersistChain env walked growRoot) s' :=
      respects_consult _ _ _ _
    rw [runAt_bind, runAt_attempt] at hdeclined h
    cases hresult : (runAt (chain.fetchAndPersistChain env walked growRoot) ⟨s', []⟩).1 with
    | error e =>
      rw [hresult] at h
      exact absurd h (by simp)
    | ok head =>
      rw [hresult] at hdeclined h
      cases head with
      | some head => exact hwalk hdeclined head hresult
      | none =>
        -- a walk without an answer has none after the verification either
        have hnone : verifyWalkedDigest walked none = .ok none := by
          unfold verifyWalkedDigest
          cases walked.digest <;> rfl
        simp only [runAt_ofExcept, hnone] at h
        exact absurd h (by simp)

/-- A read of a manifest that does not go to the sources at once. -/
theorem respects_fetchManifest {op : IndexOperation}
    (h : ¬(chain.mode = .remote ∧ op = .query ∧ identifier.digest = none)) :
    Respects (chain.fetchManifest env identifier op) s := by
  refine respects_bind fun found s' => ?_
  obtain ⟨resolution, corruptKnown⟩ := found
  cases resolution with
  | none =>
    rw [manifestFromLocal_none, if_neg h]
    cases op with
    | query => exact respects_pure _
    | resolve => exact respects_walkChain _
  | some resolution =>
    cases resolution with
    | dispatch content index => exact respects_pure _
    | absentDispatch content =>
      refine respects_bind fun recovered s'' => ?_
      cases recovered with
      | some recovered => exact respects_pure _
      | none =>
        cases op with
        | query => exact respects_pure _
        | resolve => exact respects_walkChain _

theorem respects_fetchManifestDigest {op : IndexOperation}
    (h : ¬(chain.mode = .remote ∧ op = .query ∧ identifier.digest = none)) :
    Respects (chain.fetchManifestDigest env identifier op) s := by
  refine respects_bind fun found s' => respects_bind fun digest s'' => ?_
  cases digest with
  | some digest => exact respects_pure _
  | none =>
    rw [if_neg h]
    cases op with
    | query => exact respects_pure _
    | resolve => exact (respects_map _).2 (respects_walkChain _)

/-! ### Reads that go on after failures -/

theorem respects_consult_iff {α β : Type} {σ : Type*} {answer : σ → Except IndexError (Option α)}
    {valid : α → Prop} {onHit : σ → α → LocalM β} {onStop : σ → LocalM PUnit}
    (hvalid : ∀ source a s, (∃ y, (runAt (onHit source a) s).1 = .ok y) ↔ valid a)
    (l : List (σ × Bool)) :
    Respects (consult false (fun source => ofExcept (answer source)) onHit onStop l none) s ↔
      ¬ Bypassed answer valid l := by
  obtain ⟨new, hnew, -, hbypassed⟩ := @consult_bypassed_iff _ _ _ _ _ answer valid
    (fun source => ofExcept (answer source)) onHit onStop none ⟨s, []⟩ (fun _ _ => rfl) hvalid l
  rw [← hbypassed]
  unfold Respects
  rw [hnew]
  simp

theorem respects_querySources_iff {α : Type} {ask : IndexSource → Except IndexError (Option α)} :
    Respects (chain.querySources identifier ask) s ↔
      ¬ Bypassed ask (fun _ => True) (chain.candidateSources identifier) :=
  respects_consult_iff (fun _ a _ => ⟨fun _ => trivial, fun _ => ⟨a, rfl⟩⟩) _

theorem runAt_readLocal_remote (hmode : chain.mode = .remote) (hdigest : identifier.digest = none)
    (op : IndexOperation) :
    runAt (chain.readLocal env identifier op) s = (.ok (none, false), s) := by
  unfold readLocal
  rw [if_neg (by simp [hmode, hdigest])]
  rfl

theorem respects_fetchManifest_query_iff :
    Respects (chain.fetchManifest env identifier .query) s ↔
      ¬ chain.Bypasses env s (.fetchManifest identifier .query) := by
  by_cases hremote : chain.mode = .remote ∧ identifier.digest = none
  · unfold fetchManifest
    rw [respects_bind_ok (runAt_readLocal_remote hremote.1 hremote.2 .query)]
    rw [manifestFromLocal_none, if_pos ⟨hremote.1, rfl, hremote.2⟩]
    simp only [Bypasses, hremote, and_self, true_and]
    exact respects_querySources_iff
  · have hlocal : Respects (chain.fetchManifest env identifier .query) s :=
      respects_fetchManifest fun h => hremote ⟨h.1, h.2.2⟩
    simp [hlocal, Bypasses, hremote, false_and, not_false_eq_true]

theorem respects_fetchManifestDigest_query_iff :
    Respects (chain.fetchManifestDigest env identifier .query) s ↔
      ¬ chain.Bypasses env s (.fetchManifestDigest identifier .query) := by
  by_cases hremote : chain.mode = .remote ∧ identifier.digest = none
  · unfold fetchManifestDigest
    rw [respects_bind_ok (runAt_readLocal_remote hremote.1 hremote.2 .query)]
    simp only [Bypasses, hremote, and_self, true_and, if_true]
    exact respects_querySources_iff
  · have hlocal : Respects (chain.fetchManifestDigest env identifier .query) s :=
      respects_fetchManifestDigest fun h => hremote ⟨h.1, h.2.2⟩
    simp [hlocal, Bypasses, hremote, false_and, not_false_eq_true]

end ChainedIndex

namespace ChainedIndex

variable {env : IndexEnv} {chain : ChainedIndex} {s : IndexState} {identifier : PackageRef}
  {blobRef : PinnedPackageRef}

/-! ### Blobs -/

theorem exists_runAt_persistBlob_iff {registry : String} {digest : Digest} {healCorrupt : Bool}
    {bytes : Bytes} :
    (∃ y, (runAt (chain.persistBlob env registry digest healCorrupt bytes) s).1 = .ok y) ↔
      digestMatches env bytes digest = true := by
  unfold persistBlob
  split
  · rename_i hmatch
    exact ⟨fun _ => hmatch, fun _ => ⟨bytes, rfl⟩⟩
  · rename_i hmatch
    constructor
    · rintro ⟨y, h⟩
      exact absurd h (by simp)
    · intro h
      exact absurd h hmatch

theorem respects_querySourcesBlob_iff (healCorrupt : Bool) :
    Respects (chain.querySourcesBlob env blobRef healCorrupt) s ↔
      ¬ Bypassed (fun source : IndexSource => source.fetchBlob blobRef)
        (fun bytes => digestMatches env bytes blobRef.digest = true)
        (chain.candidateSources blobRef.ref) := by
  refine respects_consult_iff (fun source bytes s => ?_) _
  exact exists_runAt_persistBlob_iff

/-- The read of the copy fails, or tells whether an intact one is there. -/
theorem readBlobCopy_cases :
    (∃ copy, runAt (chain.readBlobCopy env blobRef.ref.registry blobRef.digest) s = (.ok copy, s) ∧
      (chain.LacksBlob env s blobRef ↔ ∀ bytes, copy ≠ .intact bytes)) ∨
      ∃ e, runAt (chain.readBlobCopy env blobRef.ref.registry blobRef.digest) s = (.error e, s) ∧
        ¬ chain.LacksBlob env s blobRef := by
  unfold readBlobCopy LacksBlob
  by_cases hstore : chain.contentStore = true
  · simp only [hstore, if_true, runAt_bind, runAt_readFile, forall_const]
    cases s.files (blobFile blobRef.ref.registry blobRef.digest) with
    | absent => exact .inl ⟨.missing, rfl, by simp⟩
    | unreadable => exact .inr ⟨_, rfl, id⟩
    | content bytes =>
      by_cases hmatch : digestMatches env bytes blobRef.digest = true
      · exact .inl ⟨.intact bytes, by simp [hmatch], by simp [hmatch]⟩
      · exact .inl ⟨.corrupt bytes, by simp [hmatch], by simp [hmatch]⟩
  · exact .inl ⟨.missing, by simp [hstore], by simp [hstore]⟩

theorem respects_fetchBlob_iff :
    Respects (chain.fetchBlob env blobRef) s ↔ ¬ chain.Bypasses env s (.fetchBlob blobRef) := by
  unfold fetchBlob
  rw [Bypasses]
  obtain ⟨copy, hcopy, hlacks⟩ | ⟨e, herror, hlacks⟩ := @readBlobCopy_cases env chain s blobRef
  · rw [respects_bind_ok hcopy, hlacks]
    cases copy with
    | intact bytes => exact iff_of_true (respects_pure _) (by simp)
    | corrupt bytes =>
      simpa using respects_ite_iff (respects_of_requests_eq_nil rfl)
        (respects_querySourcesBlob_iff _)
    | missing => simpa using respects_ite_iff (respects_pure _) (respects_querySourcesBlob_iff _)
  · exact iff_of_true (respects_bind_error herror _) fun h => hlacks h.1.2

/-- **A blob is what its digest says**, wherever it comes from. -/
theorem fetchBlob_intact (env : IndexEnv) (chain : ChainedIndex) (blobRef : PinnedPackageRef)
    (t : Traced IndexState) (bytes : Bytes)
    (h : (runAt (chain.fetchBlob env blobRef) t).1 = .ok (some bytes)) :
    digestMatches env bytes blobRef.digest = true := by
  have hquery : ∀ heal t, (runAt (chain.querySourcesBlob env blobRef heal) t).1 =
      .ok (some bytes) → digestMatches env bytes blobRef.digest = true := by
    intro heal t hrun
    obtain ⟨_, answer, s, hpersist⟩ := exists_of_consult_eq_ok hrun
    have hmatch := exists_runAt_persistBlob_iff.1 ⟨bytes, hpersist⟩
    rw [persistBlob, if_pos hmatch] at hpersist
    cases hpersist
    exact hmatch
  obtain ⟨copy, t', hcopy, hrest⟩ := exists_of_runAt_bind_eq_ok h
  cases copy with
  | intact copied =>
    cases hrest
    have hread := (Prod.mk.inj hcopy).1
    unfold readBlobCopy at hread
    split at hread
    · obtain ⟨found, s, -, hfound⟩ := exists_of_runAt_bind_eq_ok hread
      rcases found with _ | copied
      · cases hfound
      · dsimp only at hfound
        split at hfound
        · cases hfound
          assumption
        · cases hfound
    · cases hread
  | corrupt _ | missing =>
    dsimp only at hrest
    split at hrest
    · cases hrest
    · exact hquery _ t' hrest

end ChainedIndex

namespace ChainedIndex

/-! ### Every read -/

variable {env : IndexEnv} {chain : ChainedIndex} {s : IndexState} {identifier : PackageRef}

theorem respects_fetchManifestRawBytes_iff :
    Respects (chain.fetchManifestRawBytes identifier) s ↔
      ¬ chain.Bypasses env s (.fetchManifestRawBytes identifier) :=
  respects_ite_iff (respects_pure _) respects_querySources_iff

/-- **Authority.** For every chain of sources, every state of the local index and every read: once
an authoritative source declined, the read returns no data, unless the read is of a kind that goes
on after a failure, gets to the sources, and a later source answers behind the failed one. -/
theorem respectsAuthority_iff (env : IndexEnv) (chain : ChainedIndex) (s : IndexState)
    (read : ChainedRead) :
    chain.RespectsAuthority env s read ↔ ¬ chain.Bypasses env s read := by
  cases read with
  | listTags identifier =>
    exact iff_of_true ((respects_map _).2 respects_listTags) id
  | fetchManifest identifier op =>
    refine (respects_map _).trans ?_
    cases op with
    | query => exact respects_fetchManifest_query_iff
    | resolve => exact iff_of_true (respects_fetchManifest (by simp)) id
  | fetchManifestDigest identifier op =>
    refine (respects_map _).trans ?_
    cases op with
    | query => exact respects_fetchManifestDigest_query_iff
    | resolve => exact iff_of_true (respects_fetchManifestDigest (by simp)) id
  | fetchBlob blobRef => exact (respects_map _).trans respects_fetchBlob_iff
  | fetchManifestRawBytes identifier =>
    exact (respects_map _).trans respects_fetchManifestRawBytes_iff

/-- A source that answers every manifest query the same. -/
def answeringSource (jurisdiction : Jurisdiction)
    (answer : Except IndexError (Option (Digest × Manifest))) : IndexSource where
  jurisdiction _ := jurisdiction
  servesRegistry _ := false
  sourceKind := .published
  indexBaseUrl := none
  listTags _ := .ok none
  fetchManifest _ := answer
  fetchManifestDigest _ := .ok none
  fetchManifestRawBytes _ := .ok none
  fetchBlob _ := .ok none
  fetchRootDocument _ := .ok none
  revalidateRootDocument _ := .ok none

/-- An index that refuses a yanked tag, before a registry that still has it. -/
def refusingChain : ChainedIndex where
  sources := [answeringSource .authoritative (.error (.yankedRefused pinnedTag)),
    answeringSource .fallThrough (.ok (some (movedDigest, .image)))]
  mode := .remote
  writePolicy := .full
  contentStore := true
  allowYanked := false

/-- The registry is listened to although the index refused the tag. -/
theorem refused_tag_served :
    ¬ refusingChain.RespectsAuthority pinnedEnv (pinnedState .absent)
      (.fetchManifest pinnedTag .query) := by
  intro hrespects
  have hrun : (runAt (refusingChain.read pinnedEnv (.fetchManifest pinnedTag .query))
      ⟨pinnedState .absent, []⟩).1 = .ok (some (.manifest (movedDigest, .image))) := rfl
  exact hrespects ⟨⟨true, .failed⟩, List.mem_cons_self, rfl, by decide⟩ _ hrun

/-- A registry with a blob. -/
def blobChain : ChainedIndex :=
  { refusingChain with sources := [{ answeringSource .fallThrough (.ok none) with
      fetchBlob := fun _ => .ok (some [1]) }] }

def pinnedBlob : PinnedPackageRef := ⟨{ pinnedTag with digest := some pinnedDigest }, rfl⟩

theorem fetchBlob_intact_served :
    (runAt (blobChain.fetchBlob pinnedEnv pinnedBlob) ⟨pinnedState .absent, []⟩).1 =
        .ok (some [1]) ∧
      digestMatches pinnedEnv [1] pinnedBlob.digest = true :=
  ⟨rfl, fetchBlob_intact pinnedEnv blobChain pinnedBlob ⟨pinnedState .absent, []⟩ [1] rfl⟩

end ChainedIndex

end Ocx
