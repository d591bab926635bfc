import Ocx.Prune.Phases

/-!
# What a prune run may delete

The decision of a run is all or nothing, and it deletes only what it may. Both follow from what the
run knows before its first request to delete: which tags are selected, which of them are kept, and
what the root says about the others.
-/

namespace Ocx

open List

namespace Prune

variable {σ : Type} {remote : Remote σ} {tags : σ → Finset String} {target : PruneTarget}

/-- What holds at the end of a run that started with the listed tags. -/
structure Finished (tags : σ → Finset String) (target : PruneTarget) (request : PruneRequest)
    (listed : Finset String) (s : Session σ) : Prop where
  /-- The report is true. -/
  gone : Gone target tags s
  /-- A request to delete was only made for a selection without a refusal. -/
  deletes : s.deletes = [] ∨
    (target.index = none → request.force = true) ∧ request.dryRun = false ∧
      (∀ row ∈ s.outcome.tags, row.action ≠ .refused) ∧
      ∃ selected, Selects listed request.selection selected ∧
        Deletes target request selected s.deletes

/-- **A whole run.** -/
theorem meets_run (hremote : remote.Lawful target.repository tags) (request : PruneRequest)
    (start : σ) :
    Meets (fun s => s.remote = start ∧ s.deletes = [] ∧ s.outcome.tags = [])
      (run remote target request)
      (fun _ => Finished tags target request (tags start))
      (fun _ => Finished tags target request (tags start)) := by
  have hgone : ∀ {s : Session σ}, s.outcome.tags = [] → Gone target tags s := by
    intro s hs row hrow
    simp [hs] at hrow
  refine Meets.ite (fun _ => Meets.throw fun s hs => ⟨hgone hs.2.2, .inl hs.2.1⟩) fun hindex => ?_
  refine Meets.of_pre fun s hs => ?_
  obtain ⟨rfl, hdeletes, hrows⟩ := hs
  -- selecting only reads
  refine Meets.bind ((meets_select hremote s request.selection).conseq (fun _ h => h)
    (fun _ _ h => h) fun _ t ht => ⟨hgone (ht.2.2 ▸ hrows), .inl (ht.2.1.trans hdeletes)⟩)
    fun selected => ?_
  refine Meets.bind (Q := fun _ t => Selects (tags s.remote) request.selection selected ∧
    Judged tags target request [] [] t) (Meets.modify ?_) fun _ => ?_
  · rintro t ⟨hselects, hreads⟩
    refine ⟨hselects, hreads.2.1.trans hdeletes, hgone (hreads.2.2 ▸ hrows), ?_⟩
    have hempty : t.outcome.tags = [] := hreads.2.2 ▸ hrows
    exact ⟨by simp [hempty], rfl, by simp, by simp [hempty]⟩
  refine Meets.of_pre fun t ⟨hselects, ht⟩ => ?_
  have hvalid := hselects.valid (hremote.valid s.remote)
  have hstop : ∀ (e : PruneError) (w : Session σ), w.deletes = [] ∧ Gone target tags w →
      Finished tags target request (tags s.remote) w := fun _ w hw => ⟨hw.2, .inl hw.1⟩
  -- the whole selection is judged before anything is deleted
  refine Meets.bind ((Meets.mapM (fun done => Judged tags target request done) selected
    fun done collected item hitem => (meets_judgeRow hremote (hvalid item hitem)).conseq
      (fun _ h => h) (fun _ _ h => h) hstop).conseq (fun w hw => hw ▸ ht) (fun _ _ h => h)
      fun _ _ h => h) fun verdicts => ?_
  refine Meets.bind (meets_checkRefused.conseq (fun _ h => h) (fun _ _ h => h) hstop) fun _ => ?_
  refine Meets.ite (fun _ => Meets.pure fun w hw => ⟨hw.1.gone, .inl hw.1.deletes⟩) fun hdry => ?_
  refine Meets.of_pre fun w ⟨hw, hcalm⟩ => ?_
  have hfinish : ∀ v, Deleting tags target request selected selected v →
      Finished tags target request (tags s.remote) v := by
    intro v hv
    refine ⟨hv.gone, .inr ⟨?_, by simpa using hdry, hv.calm, selected, hselects, hv.deletes⟩⟩
    intro hnone
    simpa [hnone] using hindex
  refine (meets_deleteRows hremote hw.reported.length hw.reported.delete).conseq ?_
    (fun _ => hfinish) fun _ => hfinish
  rintro _ rfl
  exact ⟨hw.gone, hw.reported.tag, hcalm, [], by simpa using hw.deletes, by simp, by simp⟩

/-! ### The selected tags of a pre-release -/

/-- The later builds of the pre-release among the listed tags. -/
def laterBuilds (family v : Version) (listed : Finset String) : Finset String :=
  listed.filter fun tag => (Version.parse tag).any fun w => decide (IsBuildOf family w ∧ v < w)

section Family

variable {family : PrereleaseFamily} {selected : List (String × Option PruneReason)}
  {listed : Finset String}

/-- Under a keep count, a selected tag that is not kept is a build with at least that many later
ones. -/
theorem Selects.later {keep : UInt32} (hvalid : ∀ tag ∈ listed, isRegistryTag tag = true)
    (h : Selects listed (.prerelease family (some keep)) selected) {tag : String}
    (htag : (tag, none) ∈ selected) :
    ∃ v, Version.parse tag = some v ∧ IsBuildOf family.version v ∧
      keep.toNat ≤ (laterBuilds family.version v listed).card := by
  obtain ⟨listing, hnodup, hlisting, rfl⟩ := h
  obtain ⟨i, v, hi, hkeep⟩ := exists_of_mem_selectFamily htag
  obtain ⟨-, hparse, hbuild⟩ := mem_sortedBuilds.1 (mem_of_getElem? hi)
  refine ⟨v, hparse, hbuild, ?_⟩
  have hsorted : (sortedBuilds family.version listing).Pairwise (fun l r => l.1 < r.1) :=
    pairwise_sortedBuilds hnodup fun tag htag => hvalid tag ((hlisting tag).1 htag)
  set later := ((sortedBuilds family.version listing).drop (i + 1)).map Prod.snd
  have hlater : later.Nodup := (nodup_sortedBuilds hnodup).sublist ((drop_sublist _ _).map _)
  have hsub : later.toFinset ⊆ laterBuilds family.version v listed := by
    intro u hu
    obtain ⟨⟨w, _⟩, hmem, rfl⟩ := mem_map.1 (mem_toFinset.1 hu)
    obtain ⟨hlisted, hwparse, hwbuild⟩ := mem_sortedBuilds.1 (mem_of_mem_drop hmem)
    obtain ⟨hlt, heq⟩ := List.getElem?_eq_some_iff.1 hi
    obtain ⟨k, hk⟩ := mem_iff_getElem?.1 hmem
    rw [getElem?_drop] at hk
    obtain ⟨hlt', heq'⟩ := List.getElem?_eq_some_iff.1 hk
    have hless := pairwise_iff_getElem.1 hsorted i (i + 1 + k) hlt hlt' (by omega)
    rw [heq, heq'] at hless
    simp only [laterBuilds, Finset.mem_filter]
    exact ⟨(hlisting _).1 hlisted, by simp_all⟩
  have hcard := Finset.card_le_card hsub
  rw [toFinset_card_of_nodup hlater] at hcard
  have hlength : later.length = (sortedBuilds family.version listing).length - (i + 1) := by
    simp [later]
  omega

theorem Selects.ordered {keepBuilds : Option UInt32}
    (hvalid : ∀ tag ∈ listed, isRegistryTag tag = true)
    (h : Selects listed (.prerelease family keepBuilds) selected) {done : List String}
    (hdone : done.Sublist (selected.map Prod.fst)) :
    ∃ builds rolling, done = builds ++ rolling ∧
      (∀ tag ∈ builds, ∃ v, Version.parse tag = some v ∧ IsBuildOf family.version v) ∧
      builds.Pairwise (fun t u => ∃ v w, Version.parse t = some v ∧ Version.parse u = some w ∧
        v < w) ∧
      rolling.length ≤ 1 ∧ ∀ tag ∈ rolling, Version.parse tag = some family.version := by
  obtain ⟨listing, hnodup, hlisting, rfl⟩ := h
  rw [map_fst_selectFamily, sublist_append_iff] at hdone
  obtain ⟨builds, rolling, rfl, hbuilds, hrolling⟩ := hdone
  refine ⟨builds, rolling, rfl, fun tag htag => ?_, ?_, ?_, fun tag htag => ?_⟩
  · obtain ⟨build, hbuild, rfl⟩ := mem_map.1 (hbuilds.subset htag)
    exact ⟨build.1, (mem_sortedBuilds.1 hbuild).2⟩
  · refine List.Pairwise.sublist hbuilds (pairwise_map.2 ?_)
    refine (pairwise_sortedBuilds hnodup fun tag htag =>
      hvalid tag ((hlisting tag).1 htag)).imp_of_mem fun hl hr hlt => ?_
    exact ⟨_, _, (mem_sortedBuilds.1 hl).2.1, (mem_sortedBuilds.1 hr).2.1, hlt⟩
  · refine hrolling.length_le.trans ?_
    cases (listing.foldl (sortTag family.version) ([], none)).2 <;> simp
  · exact (of_mem_rolling (hrolling.subset htag)).2

end Family

end Prune

/-! ### The guarantees -/

open Prune

/-- What a prune run guarantees. -/
structure PruneSafe {σ : Type} (remote : Remote σ) (tags : σ → Finset String)
    (target : PruneTarget) (request : PruneRequest) (s : σ) : Prop where
  /-- When a selected tag is refused, nothing is deleted. -/
  refused : (∃ row ∈ (prune remote target request s).outcome.tags, row.action = .refused) →
    (prune remote target request s).deletes = []
  dryRun : request.dryRun = true → (prune remote target request s).deletes = []
  /-- Without a root and without force nothing is deleted. -/
  noIndex : target.index = none → request.force = false →
    (prune remote target request s).deletes = []
  /-- A tag is deleted only when the root marks it as ephemeral or the run is forced. -/
  allowed : ∀ reference ∈ (prune remote target request s).deletes, ∃ tag,
    reference = target.repository.cloneWithTag tag ∧ reference.tag = some tag ∧
      (request.force = true ∨ ∃ row, target.row tag = some row ∧ row.ephemeral = true)
  /-- The rolling tag is kept under a keep count. -/
  rolling : ∀ family keep, request.selection = .prerelease family (some keep) →
    ∀ tag ∈ tags s, Version.parse tag = some family.version →
      target.repository.cloneWithTag tag ∉ (prune remote target request s).deletes
  /-- The greatest builds are kept, as many as the keep count says. -/
  newest : ∀ family keep, request.selection = .prerelease family (some keep) →
    ∀ tag ∈ tags s, ∀ v, Version.parse tag = some v → IsBuildOf family.version v →
      (laterBuilds family.version v (tags s)).card < keep.toNat →
        target.repository.cloneWithTag tag ∉ (prune remote target request s).deletes
  /-- Builds are deleted in ascending order, the rolling tag last. -/
  order : ∀ family keepBuilds, request.selection = .prerelease family keepBuilds →
    ∃ builds rolling : List String, (prune remote target request s).deletes =
      (builds ++ rolling).map target.repository.cloneWithTag ∧
      (∀ tag ∈ builds, ∃ v, Version.parse tag = some v ∧ IsBuildOf family.version v) ∧
      builds.Pairwise (fun t u => ∃ v w, Version.parse t = some v ∧ Version.parse u = some w ∧
        v < w) ∧
      rolling.length ≤ 1 ∧ ∀ tag ∈ rolling, Version.parse tag = some family.version
  /-- The entries of the tags file are tags of the root that are gone from the registry. -/
  entries : ∀ entries, (prune remote target request s).outcome.tagsFileEntries = some entries →
    ∀ tag ∈ entries, (target.row tag).isSome = true ∧
      tag ∉ tags (prune remote target request s).remote

section Safe

variable {σ : Type} {remote : Remote σ} {tags : σ → Finset String} {target : PruneTarget}

theorem finished_prune (hremote : remote.Lawful target.repository tags) (request : PruneRequest)
    (s : σ) :
    Finished tags target request (tags s) ⟨(prune remote target request s).remote,
      (prune remote target request s).deletes, (prune remote target request s).outcome⟩ := by
  have hrun := meets_run hremote request s ⟨s, [], emptyOutcome target request⟩
    ⟨rfl, rfl, rfl⟩
  rw [prune]
  rcases hresult : runAt (run remote target request) ⟨s, [], emptyOutcome target request⟩
    with ⟨r, t⟩
  rw [hresult] at hrun
  cases r <;> exact hrun

theorem mem_selected_of_deletes (hremote : remote.Lawful target.repository tags)
    {request : PruneRequest} {s : σ} {tag : String} (htag : tag ∈ tags s)
    (hmem : target.repository.cloneWithTag tag ∈ (prune remote target request s).deletes) :
    ∃ selected, Selects (tags s) request.selection selected ∧ (tag, none) ∈ selected := by
  rcases (finished_prune hremote request s).deletes with
    hnone | ⟨-, -, -, selected, hselects, done, hdone, hsub, -⟩
  · simp [show (prune remote target request s).deletes = [] from hnone] at hmem
  · rw [show (prune remote target request s).deletes = _ from hdone] at hmem
    obtain ⟨u, hu, heq⟩ := mem_map.1 hmem
    obtain ⟨item, hitem, rfl⟩ := mem_map.1 (hsub.subset hu)
    obtain ⟨hitem, hkept⟩ := mem_filter.1 hitem
    have hvalid := hselects.valid (hremote.valid s) item hitem
    have hsame := congrArg PackageRef.tag heq
    rw [PackageRef.tag_cloneWithTag _ hvalid,
      PackageRef.tag_cloneWithTag _ (hremote.valid s tag htag)] at hsame
    obtain ⟨t, kept⟩ := item
    obtain rfl : t = tag := Option.some.inj hsame
    obtain rfl : kept = none := Option.isNone_iff_eq_none.1 hkept
    exact ⟨selected, hselects, hitem⟩

/-- **Pruning is safe.** Every run, of every request and from every state of a registry that answers
truthfully, has the guarantees, whether or not it succeeds. -/
theorem pruneSafe (hremote : remote.Lawful target.repository tags) (request : PruneRequest)
    (s : σ) : PruneSafe remote tags target request s := by
  have hfinished := finished_prune hremote request s
  have hvalid := hremote.valid s
  refine ⟨?_, ?_, ?_, ?_, ?_, ?_, ?_, ?_⟩
  · rintro ⟨row, hrow, haction⟩
    refine hfinished.deletes.resolve_right ?_
    rintro ⟨-, -, hcalm, -⟩
    exact hcalm row hrow haction
  · intro hdry
    refine hfinished.deletes.resolve_right ?_
    rintro ⟨-, hnot, -⟩
    simp [hdry] at hnot
  · intro hindex hforce
    refine hfinished.deletes.resolve_right ?_
    rintro ⟨hforced, -⟩
    simp [hforced hindex] at hforce
  · intro reference hmem
    rcases hfinished.deletes with hnone | ⟨-, -, -, selected, hselects, done, hdone, hsub, hallowed⟩
    · simp [show (prune remote target request s).deletes = [] from hnone] at hmem
    · rw [show (prune remote target request s).deletes = _ from hdone] at hmem
      obtain ⟨tag, htag, rfl⟩ := mem_map.1 hmem
      obtain ⟨item, hitem, rfl⟩ := mem_map.1 (hsub.subset htag)
      have htag' := hselects.valid hvalid item (mem_filter.1 hitem).1
      exact ⟨item.1, rfl, PackageRef.tag_cloneWithTag _ htag', hallowed _ htag⟩
  · intro family keep hselection tag htag hparse hmem
    obtain ⟨selected, hselects, hitem⟩ := mem_selected_of_deletes hremote htag hmem
    rw [hselection] at hselects
    obtain ⟨v, hv, hbuild, -⟩ := hselects.later hvalid hitem
    exact hbuild.ne (Option.some.inj (hv.symm.trans hparse))
  · intro family keep hselection tag htag v hparse _ hcard hmem
    obtain ⟨selected, hselects, hitem⟩ := mem_selected_of_deletes hremote htag hmem
    rw [hselection] at hselects
    obtain ⟨w, hw, -, hkeep⟩ := hselects.later hvalid hitem
    obtain rfl : w = v := Option.some.inj (hw.symm.trans hparse)
    omega
  · intro family keepBuilds hselection
    rcases hfinished.deletes with hnone | ⟨-, -, -, selected, hselects, done, hdone, hsub, -⟩
    · exact ⟨[], [], hnone, by simp, by simp, by simp, by simp⟩
    · rw [hselection] at hselects
      obtain ⟨builds, rolling, rfl, horder⟩ :=
        hselects.ordered hvalid (hsub.trans (filter_sublist.map _))
      exact ⟨builds, rolling, hdone, horder⟩
  · intro entries hentries tag htag
    rw [PruneOutcome.tagsFileEntries] at hentries
    split_ifs at hentries
    obtain rfl := Option.some.inj hentries
    obtain ⟨row, hrow, rfl⟩ := mem_map.1 htag
    obtain ⟨hrow, hin⟩ := mem_filter.1 hrow
    rw [Bool.and_eq_true] at hin
    obtain ⟨hroot, hgone⟩ := (hfinished.gone row hrow).2 hin.1
    exact ⟨hroot, hgone hin.2⟩

end Safe

/-! ### A registry -/

/-- The tags of a repository, each once and in the grammar. -/
structure TagList where
  tags : List String
  nodup : tags.Nodup
  /-- Every tag is in the grammar. -/
  valid : ∀ tag ∈ tags, isRegistryTag tag = true

def TagList.erase (s : TagList) (tag : String) : TagList :=
  ⟨s.tags.erase tag, s.nodup.erase _, fun t ht => s.valid t (List.mem_of_mem_erase ht)⟩

/-- A registry with one repository that answers at once and never fails. -/
def tagRegistry : Remote TagList where
  listTags s _ := (.ok s.tags, s)
  probeManifest s reference :=
    (.ok (if reference.tag.any (· ∈ s.tags) then .present ⟨.sha256, ""⟩ else .absent), s)
  deleteManifest s reference := match reference.tag with
    | none => (.ok .alreadyAbsent, s)
    | some tag => (.ok (if tag ∈ s.tags then .deleted else .alreadyAbsent), s.erase tag)

theorem lawful_tagRegistry (repository : PackageRef) :
    tagRegistry.Lawful repository (·.tags.toFinset) where
  valid s tag htag := s.valid tag (mem_toFinset.1 htag)
  listed s listing s' h := by
    obtain rfl := Except.ok.inj (Prod.mk.inj h).1
    exact ⟨s.nodup, fun tag => mem_toFinset.symm⟩
  notFound s name s' h := by simp [tagRegistry] at h
  absent s tag s' htag h := by
    obtain ⟨hpresence, rfl⟩ := Prod.mk.inj h
    intro hmem
    simp [PackageRef.tag_cloneWithTag repository htag, mem_toFinset.1 hmem] at hpresence
  listTags_subset s reference := Finset.Subset.refl _
  probeManifest_subset s reference := Finset.Subset.refl _
  deleteManifest_subset s reference := by
    intro tag htag
    cases hreference : reference.tag with
    | none => simpa [tagRegistry, hreference] using htag
    | some other =>
      simp only [tagRegistry, hreference, mem_toFinset] at htag ⊢
      exact mem_of_mem_erase htag

/-- The pre-release `0.5.0-canary`. -/
def canary : PrereleaseFamily where
  version := Version.newPrerelease 0 5 0 "canary"
  parsed := ⟨"0.5.0-canary", by decide +kernel⟩

/-- The root marks every tag of the pre-release as ephemeral. -/
def canaryTarget : PruneTarget where
  package := ⟨"registry", "tool", none, none⟩
  repository := ⟨"registry", "tool", none, none⟩
  index := some ⟨"https://index", ⟨.sha256, ""⟩, .ofList
    ([("0.5.0-canary_1", RootRow.mk ⟨.sha256, "1"⟩ true),
      ("0.5.0-canary_2", RootRow.mk ⟨.sha256, "2"⟩ true),
      ("0.5.0-canary", RootRow.mk ⟨.sha256, "2"⟩ true)])⟩

/-- Two builds and the rolling tag. -/
def canaryTags : TagList :=
  ⟨["0.5.0-canary_2", "0.5.0-canary_1", "0.5.0-canary"], by decide, by decide +kernel⟩

theorem pruneSafe_canary : PruneSafe tagRegistry (·.tags.toFinset) canaryTarget
    ⟨.prerelease canary (some 1), false, false⟩ canaryTags :=
  pruneSafe (lawful_tagRegistry _) _ _

example : (prune tagRegistry canaryTarget ⟨.prerelease canary (some 1), false, false⟩
    canaryTags).deletes.map (·.tag) = [some "0.5.0-canary_1"] := by decide +kernel

end Ocx
