import Ocx.Cascade.Orphans

/-!
# Applying a repair

Before a planned index is written, every manifest it names is probed. A dead manifest that backs
only orphan slots is dropped from the index; any other one refuses the write, and so does an index
that would be left empty. The tag is read again right before the write, and a tag that has moved is
left alone.
-/

namespace Ocx

open List

/-! ### Deciding -/

/-- What preflight decides about a planned write. -/
inductive Preflight
  /-- Write it, without the entries that name a dropped digest. -/
  | write (dropped : Std.ExtTreeSet String)
  /-- Do not write it. -/
  | refuse (reason : Unrepairable)

/-- Whether every entry that names the digest is an orphan slot among the reasons for the write. An
entry without a platform never is. -/
def backsOrphansOnly (write : PlannedWrite) (digest : String) : Bool :=
  (write.index.manifests.filter (·.digest == digest)).all fun entry =>
    entry.platform.any fun platform =>
      write.reasons.any fun row =>
        row.status == .orphan && row.platform == platform && row.observed == some digest

/-- The decision about a planned write, from its dead manifests and the digests that cannot be
addressed. -/
def verdict (write : PlannedWrite) (missing : Std.ExtTreeMap String Digest)
    (unaddressable : Std.ExtTreeSet String) : Preflight :=
  match unaddressable.toList.head? with
  | some digest => .refuse (.childDigestUnaddressable write.tag digest)
  | none =>
    match missing.toList.find? fun m => !backsOrphansOnly write m.1 with
    | some m => .refuse (.childManifestMissing write.tag m.2)
    | none =>
      let dropped : Std.ExtTreeSet String := .ofList missing.keys
      if !dropped.isEmpty && write.index.manifests.all fun entry => dropped.contains entry.digest
      then .refuse (.wouldEmptyIndex write.tag)
      else .write dropped

/-! ### Writing -/

/-- The index that goes to the registry. -/
def writtenIndex (write : PlannedWrite) (dropped : Std.ExtTreeSet String) : ImageIndex :=
  { write.index with
    manifests := write.index.manifests.filter fun entry => !dropped.contains entry.digest }

/-- What the registry answers while one tag is written. -/
structure AliasAnswers where
  /-- What the tag points at right before the write. -/
  live : Except String (Option Digest)
  push : Except String Digest
  /-- What the tag points at afterwards. -/
  readBack : Except String (Option Digest)

/-- What happened to a planned write. -/
inductive WriteOutcome
  | written (digest : Digest) (verified : Bool) (dropped : List String)
  /-- The write would have published something broken. -/
  | refused (reason : Unrepairable)
  /-- The tag has moved since it was read. -/
  | raced (expected live : Option Digest)
  | failed (message : String)

/-- Whether a tag still names what was written. -/
def verifyWrite (answers : AliasAnswers) (written : Digest) : Bool :=
  match answers.readBack with
  | .ok (some observed) => observed == written
  | _ => false

/-- Write one tag: the outcome, and the index that was sent to the registry, if any. -/
def writeAlias (answers : AliasAnswers) (write : PlannedWrite) :
    Preflight → WriteOutcome × Option ImageIndex
  | .refuse reason => (.refused reason, none)
  | .write dropped =>
    match answers.live with
    | .error source => (.failed ("could not confirm the alias before writing: " ++ source), none)
    | .ok live =>
      if live ≠ write.observedDigest then (.raced write.observedDigest live, none)
      else
        let outcome := match answers.push with
          | .ok digest => .written digest (verifyWrite answers digest) dropped.toList
          | .error source => .failed source
        (outcome, some (writtenIndex write dropped))

/-! ### What a write keeps -/

section Verdict

variable {write : PlannedWrite} {missing : Std.ExtTreeMap String Digest}
  {unaddressable : Std.ExtTreeSet String} {dropped : Std.ExtTreeSet String}

/-- What a decision to write rests on. -/
structure Writable (write : PlannedWrite) (missing : Std.ExtTreeMap String Digest)
    (unaddressable dropped : Std.ExtTreeSet String) : Prop where
  /-- Every digest can be addressed. -/
  addressable : ∀ digest, digest ∉ unaddressable
  /-- The dead manifests are dropped. -/
  mem_dropped : ∀ digest, digest ∈ dropped ↔ digest ∈ missing
  /-- They back nothing but orphans. -/
  orphans : ∀ digest ∈ missing, backsOrphansOnly write digest = true
  /-- Something is left, if anything was dropped. -/
  nonempty : (∃ digest, digest ∈ missing) →
    ∃ entry ∈ write.index.manifests, entry.digest ∉ missing

theorem writable_of_verdict (h : verdict write missing unaddressable = .write dropped) :
    Writable write missing unaddressable dropped := by
  rw [verdict] at h
  split at h
  · cases h
  · next hnone =>
    split at h
    · cases h
    · next hfind =>
      dsimp only at h
      split_ifs at h with hempty
      obtain rfl := Preflight.write.inj h
      have hmem : ∀ digest, digest ∈ (Std.ExtTreeSet.ofList missing.keys) ↔ digest ∈ missing := by
        simp
      refine ⟨fun digest hmem => ?_, hmem, fun digest hdigest => ?_, fun ⟨digest, hdigest⟩ => ?_⟩
      · rw [head?_eq_none_iff] at hnone
        rw [← Std.ExtTreeSet.mem_toList, hnone] at hmem
        cases hmem
      · obtain ⟨parsed, hparsed⟩ := Option.isSome_iff_exists.1
          (Std.ExtTreeMap.mem_iff_isSome_getElem?.1 hdigest)
        have := find?_eq_none.1 hfind (digest, parsed)
          (Std.ExtTreeMap.mem_toList_iff_getElem?_eq_some.2 hparsed)
        simpa using this
      · have hdropped : (Std.ExtTreeSet.ofList missing.keys).isEmpty = false := by
          rw [Bool.eq_false_iff]
          intro hemp
          rw [Std.ExtTreeSet.isEmpty_iff] at hemp
          have := (hmem digest).2 hdigest
          rw [hemp] at this
          simp at this
        rw [hdropped] at hempty
        simp only [Bool.not_false, Bool.true_and, all_eq_true, not_forall] at hempty
        obtain ⟨entry, hentry, hnot⟩ := hempty
        refine ⟨entry, hentry, fun hin => hnot ?_⟩
        simpa using (hmem _).2 hin

end Verdict

section Plan

variable {o : TagGraphObservation} {scope : AliasSet} {w : PlannedWrite}

theorem orphan_of_mem_repairReasons {expected : ExpectedGraph} {a : AliasTag} {row : SlotRow}
    (h : row ∈ repairReasons (diff o expected scope) a) (hstatus : row.status = .orphan) :
    (wantedSlots expected a)[row.platform]? = none ∧
      ∃ e, platformSlot e = some row.platform := by
  obtain ⟨hrows, hrow⟩ := mem_filter.1 h
  obtain ⟨b, -, hmem⟩ := mem_flatMap.1 hrows
  have htag : row.tag = a := by simpa using (Bool.and_eq_true_iff.1 hrow).2
  obtain rfl : b = a := (tag_of_mem_aliasRows hmem).symm.trans htag
  rcases mem_aliasRows.1 hmem with ⟨p, hp⟩ | ⟨s, -, rfl⟩
  · obtain ⟨status, hs, rfl⟩ := Option.map_eq_some_iff.1 hp
    obtain rfl : status = .orphan := hstatus
    cases hwant : (wantedSlots expected b)[p]? with
    | some want =>
      rw [hwant] at hs
      cases hheld : (observedSlots o b).1[p]? with
      | none => simp [hheld, slotStatus] at hs
      | some held =>
        rw [hheld, slotStatus] at hs
        split_ifs at hs <;> cases hs
    | none =>
      refine ⟨rfl, ?_⟩
      cases hheld : (observedSlots o b).1[p]? with
      | none => simp [hwant, hheld, slotStatus] at hs
      | some held =>
        rw [getElem?_observedSlots] at hheld
        have hlisted := mem_of_getLast? hheld
        rw [listedFor] at hlisted
        cases hindex : o.index b with
        | none => simp [hindex] at hlisted
        | some index =>
          rw [hindex] at hlisted
          exact ⟨held, by simpa using (mem_filter.1 hlisted).2⟩
  · cases hstatus

/-- An entry that a write may drop is an orphan. -/
theorem unexpected_of_backsOrphansOnly
    (hw : w ∈ planRepairs o (foldExpected o) (diff o (foldExpected o) scope))
    {e : ImageIndexEntry} (he : e ∈ w.index.manifests)
    (h : backsOrphansOnly w e.digest = true) :
    ∃ p, platformSlot e = some p ∧ (wantedSlots (foldExpected o) w.tag)[p]? = none := by
  obtain ⟨-, -, -, -, hreasons, -⟩ := of_mem_planRepairs hw
  have hentry := all_eq_true.1 h e (mem_filter.2 ⟨he, by simp⟩)
  obtain ⟨p, hp, hrows⟩ := (Option.any_eq_true _ _).1 hentry
  obtain ⟨row, hrow, hspec⟩ := any_eq_true.1 hrows
  simp only [Bool.and_eq_true, beq_iff_eq] at hspec
  obtain ⟨⟨hstatus, rfl⟩, -⟩ := hspec
  rw [hreasons] at hrow
  obtain ⟨hwanted, e', he'⟩ := orphan_of_mem_repairReasons hrow hstatus
  -- the platform of a held entry is no placeholder, so `e` claims a slot for it
  have hknown : row.platform.isUnknown = false := by
    obtain ⟨-, h⟩ := Option.filter_eq_some_iff.1 he'
    simpa using h
  exact ⟨row.platform, Option.filter_eq_some_iff.2 ⟨hp, by simp [hknown]⟩, hwanted⟩

theorem planEntry_foldl_rest (entries : List ImageIndexEntry)
    (s : Std.ExtTreeMap NativePlatform ImageIndexEntry × List ImageIndexEntry) :
    (entries.foldl planEntry s).2 = s.2 ++ entries.filter fun e => platformSlot e = none := by
  induction entries generalizing s with
  | nil => simp
  | cons e entries ih =>
    rw [foldl_cons, ih, planEntry]
    cases hslot : platformSlot e <;> simp [hslot]

theorem unplatformed_mem_repairIndex {expected : ExpectedGraph} {a : AliasTag} {old : ImageIndex}
    (hold : o.index a = some old) {e : ImageIndexEntry} (he : e ∈ old.manifests)
    (hslot : platformSlot e = none) : e ∈ (repairIndex o expected a).manifests := by
  refine mem_append_right _ ?_
  rw [TagGraphObservation.index] at hold
  rw [planned]
  rcases htag : o.tags[a]? with _ | ⟨digest, size, _ | index⟩
  · simp [htag] at hold
  · simp [htag] at hold
  · obtain rfl : index = old := by simpa [htag] using hold
    rw [planEntry_foldl_rest, nil_append]
    exact mem_filter.2 ⟨he, by simpa using hslot⟩

theorem wanted_mem_repairIndex {a : AliasTag} {p : NativePlatform} {want : ExpectedSlot}
    (h : (wantedSlots (foldExpected o) a)[p]? = some want) :
    want.entry ∈ (repairIndex o (foldExpected o) a).manifests := by
  refine mem_append_left _ (mem_map.2 ⟨(p, want.entry), ?_, rfl⟩)
  exact Std.ExtTreeMap.mem_toList_iff_getElem?_eq_some.2 ((planInv_planned o a).covered p want h)

/-- An index that a repair may send: it is neither broken nor lossy. -/
structure WholeIndex (o : TagGraphObservation) (w : PlannedWrite)
    (missing : Std.ExtTreeMap String Digest) (unaddressable : Std.ExtTreeSet String)
    (index : ImageIndex) : Prop where
  /-- It has an entry. -/
  nonempty : index.manifests ≠ []
  /-- It names no dead manifest and none that cannot be addressed. -/
  live : ∀ e ∈ index.manifests, e.digest ∉ missing ∧ e.digest ∉ unaddressable
  /-- It has every entry that the fold expects. -/
  expected : ∀ (p : NativePlatform) (want : ExpectedSlot),
    (wantedSlots (foldExpected o) w.tag)[p]? = some want → want.entry ∈ index.manifests
  /-- It has every planned entry that claims no slot. -/
  unplatformed : ∀ e ∈ w.index.manifests, platformSlot e = none → e ∈ index.manifests
  /-- Those of the index that it replaces are among them. -/
  kept : ∀ old, o.index w.tag = some old → ∀ e ∈ old.manifests, platformSlot e = none →
    e ∈ index.manifests

theorem WholeIndex.of_writable
    (hw : w ∈ planRepairs o (foldExpected o) (diff o (foldExpected o) scope))
    {missing : Std.ExtTreeMap String Digest} {unaddressable dropped : Std.ExtTreeSet String}
    (h : Writable w missing unaddressable dropped) :
    WholeIndex o w missing unaddressable (writtenIndex w dropped) := by
  obtain ⟨-, -, hne, hindex, -, -⟩ := of_mem_planRepairs hw
  have hmem : ∀ e, e ∈ (writtenIndex w dropped).manifests ↔
      e ∈ w.index.manifests ∧ e.digest ∉ missing := by
    intro e
    rw [writtenIndex, mem_filter, ← h.mem_dropped, Bool.not_eq_true',
      ← Std.ExtTreeSet.contains_iff_mem, Bool.not_eq_true]
  -- what is not an orphan stays
  have hstays : ∀ e ∈ w.index.manifests, (∀ p, platformSlot e = some p →
      (wantedSlots (foldExpected o) w.tag)[p]? ≠ none) →
      e ∈ (writtenIndex w dropped).manifests := by
    intro e he hnot
    refine (hmem e).2 ⟨he, fun hmissing => ?_⟩
    obtain ⟨p, hp, hwanted⟩ := unexpected_of_backsOrphansOnly hw he (h.orphans _ hmissing)
    exact hnot p hp hwanted
  have hunplatformed : ∀ e ∈ w.index.manifests, platformSlot e = none →
      e ∈ (writtenIndex w dropped).manifests := fun e he hslot =>
    hstays e he fun p hp => by simp [hslot] at hp
  refine ⟨?_, fun e he => ⟨((hmem e).1 he).2, h.addressable _⟩, fun p want hwant => ?_,
    hunplatformed, fun old hold e he hslot => hunplatformed e ?_ hslot⟩
  · by_cases hmissing : ∃ digest, digest ∈ missing
    · obtain ⟨e, he, hnot⟩ := h.nonempty hmissing
      exact ne_nil_of_mem ((hmem e).2 ⟨he, hnot⟩)
    · obtain ⟨e, he⟩ := exists_mem_of_ne_nil _ hne
      refine ne_nil_of_mem ((hmem e).2 ⟨?_, fun hin => hmissing ⟨_, hin⟩⟩)
      rw [hindex]
      exact he
  · refine hstays _ (by rw [hindex]; exact wanted_mem_repairIndex hwant) fun q hq => ?_
    rw [platformSlot_of_wanted hwant] at hq
    obtain rfl := Option.some.inj hq
    simp [hwant]
  · rw [hindex]
    exact unplatformed_mem_repairIndex hold he hslot

theorem sent_eq_some {answers : AliasAnswers} {decision : Preflight} {index : ImageIndex}
    (h : (writeAlias answers w decision).2 = some index) :
    ∃ dropped, decision = .write dropped ∧ index = writtenIndex w dropped := by
  cases decision with
  | refuse reason => cases h
  | write dropped =>
    rw [writeAlias] at h
    split at h
    · cases h
    · split_ifs at h
      exact ⟨dropped, rfl, (Option.some.inj h).symm⟩

/-- **Whole indexes.** Whatever manifests of a planned write are found dead or beyond address, and
whatever the registry answers: an index that is sent for the write is not empty, names none of
them, and keeps every entry that the fold expects at the tag and every entry that claims no
slot. -/
theorem sent_index_whole
    (hw : w ∈ planRepairs o (foldExpected o) (diff o (foldExpected o) scope))
    (missing : Std.ExtTreeMap String Digest) (unaddressable : Std.ExtTreeSet String)
    (answers : AliasAnswers) {index : ImageIndex}
    (h : (writeAlias answers w (verdict w missing unaddressable)).2 = some index) :
    WholeIndex o w missing unaddressable index := by
  obtain ⟨dropped, hverdict, rfl⟩ := sent_eq_some h
  exact .of_writable hw (writable_of_verdict hverdict)

end Plan

/-- The registry lost the manifest `old`. -/
def deadOld : Std.ExtTreeMap String Digest := .ofList [("old", Digest.mk .sha256 "00")]

/-- A lost orphan is dropped, and all tags are written. -/
theorem sent_index_whole_orphan :
    (repairs (windowsOrphans ["old"])).length = 3 ∧
    ∀ w ∈ repairs (windowsOrphans ["old"]), ∃ index,
      (writeAlias ⟨.ok w.observedDigest, .error "", .error ""⟩ w (verdict w deadOld ∅)).2 =
        some index ∧ WholeIndex (windowsOrphans ["old"]) w deadOld ∅ index := by
  have hsent : (repairs (windowsOrphans ["old"])).all (fun w =>
      (writeAlias ⟨.ok w.observedDigest, .error "", .error ""⟩ w (verdict w deadOld ∅)).2.isSome) =
        true := by
    decide +kernel
  refine ⟨by decide +kernel, fun w hw => ?_⟩
  obtain ⟨index, hindex⟩ := Option.isSome_iff_exists.1 (all_eq_true.1 hsent w hw)
  exact ⟨index, hindex, sent_index_whole hw deadOld ∅ _ hindex⟩

end Ocx
