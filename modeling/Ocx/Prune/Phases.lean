import Ocx.Prune.Spec

/-!
# The phases of a prune run

A run selects, judges every selected tag, stops when one is refused, and deletes. Each phase keeps
its own invariant of the session: what was selected, what the report says about it, and which
requests to delete were made. The invariants also hold when a phase fails half way.
-/

namespace Ocx

open List Option

variable {build : Version × String} {verdicts : List Verdict} {rows : List PruneTag}
  {item : String × Option PruneReason} {deletes : List PackageRef} {position : ℕ}
  {action : PruneAction} {first : List (String × Option PruneReason)}

theorem PackageRef.tag_cloneWithTag (r : PackageRef) {tag : String}
    (h : isRegistryTag tag = true) : (r.cloneWithTag tag).tag = some tag := by
  have hmap : (tag.toList.map fun c => if c = '+' then '_' else c) = tag.toList := by
    refine (map_congr_left fun c hc => if_neg ?_).trans (map_id _)
    rintro rfl
    exact plus_notMem_of_isRegistryTag h hc
  rw [cloneWithTag, hmap, String.ofList_toList]

open Meets

namespace Prune

/-! ### The selection of a pre-release -/

/-- The version is a build of the pre-release. -/
def IsBuildOf (family v : Version) : Prop := v.hasBuild = true ∧ v.parent = some family

instance (family v : Version) : Decidable (IsBuildOf family v) :=
  inferInstanceAs (Decidable (_ ∧ _))

section Family

variable {family v : Version} {tag : String} {listing : List String}

theorem IsBuildOf.ne (h : IsBuildOf family v) : v ≠ family :=
  (Version.lt_of_parent_eq_some h.2).ne

theorem IsBuildOf.hasPatch (h : IsBuildOf family v) : v.hasPatch = true := by
  obtain ⟨var, maj, rest⟩ := v
  have hbuild := h.1
  rcases rest with _ | ⟨m, _ | ⟨q, b, pre⟩⟩ <;>
    simp_all [Version.hasBuild, Version.build, Version.hasPatch, Version.patch]

/-- A listed tag with its version, when that is a build of the pre-release. -/
def buildTag (family : Version) (tag : String) : Option (Version × String) :=
  (Version.parse tag).bind fun v => if IsBuildOf family v then some (v, tag) else none

theorem buildTag_eq_some : buildTag family tag = some build ↔
    build.2 = tag ∧ Version.parse tag = some build.1 ∧ IsBuildOf family build.1 := by
  obtain ⟨w, u⟩ := build
  simp only [buildTag, bind_eq_some_iff, ite_none_right_eq_some, some.injEq,
    Prod.mk.injEq]
  constructor
  · rintro ⟨w, hparse, hbuild, rfl, rfl⟩
    exact ⟨rfl, hparse, hbuild⟩
  · rintro ⟨rfl, hparse, hbuild⟩
    exact ⟨w, hparse, hbuild, rfl, rfl⟩

theorem foldl_sortTag_fst (listing : List String) (acc : List (Version × String) × Option String) :
    (listing.foldl (sortTag family) acc).1 = acc.1 ++ listing.filterMap (buildTag family) := by
  induction listing generalizing acc with
  | nil => simp
  | cons tag rest ih =>
    rw [foldl_cons, ih, filterMap_cons]
    unfold sortTag buildTag
    cases hparse : Version.parse tag with
    | none => simp
    | some v =>
      by_cases hfamily : v = family
      · have hnot : ¬ IsBuildOf family v := fun hbuild => hbuild.ne hfamily
        simp [hfamily, hfamily ▸ hnot]
      · by_cases hbuild : IsBuildOf family v
        · have hcond : (v.hasBuild && v.parent == some family) = true := by
            simp [hbuild.1, hbuild.2]
          simp [hfamily, hcond, hbuild]
        · have hcond : ¬ (v.hasBuild && v.parent == some family) = true := by
            simpa [IsBuildOf] using hbuild
          simp [hfamily, hcond, hbuild]

theorem foldl_sortTag_snd {acc : List (Version × String) × Option String}
    (h : (listing.foldl (sortTag family) acc).2 = some tag) :
    acc.2 = some tag ∨ tag ∈ listing ∧ Version.parse tag = some family := by
  induction listing generalizing acc with
  | nil => exact .inl h
  | cons u rest ih =>
    rcases ih h with hacc | ⟨hmem, hparse⟩
    · unfold sortTag at hacc
      split at hacc
      · exact .inl hacc
      · next v hparse =>
        split_ifs at hacc with hfamily
        · obtain rfl := some.inj hacc
          exact .inr ⟨mem_cons_self, hfamily ▸ hparse⟩
        · exact .inl hacc
        · exact .inl hacc
    · exact .inr ⟨mem_cons_of_mem _ hmem, hparse⟩

theorem of_mem_rolling (h : tag ∈ (listing.foldl (sortTag family) ([], none)).2.toList) :
    tag ∈ listing ∧ Version.parse tag = some family :=
  (foldl_sortTag_snd (mem_toList.1 h)).resolve_left (by simp)

theorem perm_sortedBuilds (family : Version) (listing : List String) :
    (sortedBuilds family listing).Perm (listing.filterMap (buildTag family)) := by
  rw [sortedBuilds, foldl_sortTag_fst]
  exact perm_insertionSort _ _

theorem mem_sortedBuilds : build ∈ sortedBuilds family listing ↔
    build.2 ∈ listing ∧ Version.parse build.2 = some build.1 ∧ IsBuildOf family build.1 := by
  rw [(perm_sortedBuilds family listing).mem_iff, mem_filterMap]
  simp only [buildTag_eq_some]
  constructor
  · rintro ⟨tag, htag, rfl, hbuild⟩
    exact ⟨htag, hbuild⟩
  · rintro ⟨htag, hbuild⟩
    exact ⟨build.2, htag, rfl, hbuild⟩

theorem nodup_sortedBuilds (h : listing.Nodup) :
    ((sortedBuilds family listing).map Prod.snd).Nodup := by
  have hsub : ((listing.filterMap (buildTag family)).map Prod.snd).Sublist listing := by
    induction listing with
    | nil => simp
    | cons tag rest ih =>
      have hrest := ih (nodup_cons.1 h).2
      cases hbuild : buildTag family tag with
      | none => simpa [filterMap_cons, hbuild] using hrest.cons tag
      | some build =>
        have htag := (buildTag_eq_some.1 hbuild).1
        simpa [filterMap_cons, hbuild, htag] using hrest.cons_cons tag
  exact ((perm_sortedBuilds family listing).map Prod.snd).nodup_iff.2 (h.sublist hsub)

theorem pairwise_sortedBuilds (h : listing.Nodup)
    (hvalid : ∀ tag ∈ listing, isRegistryTag tag = true) :
    (sortedBuilds family listing).Pairwise (fun l r => l.1 < r.1) := by
  have hle : (sortedBuilds family listing).Pairwise (fun l r => l.1 ≤ r.1) :=
    pairwise_insertionSort _ _
  have hne : (sortedBuilds family listing).Pairwise (fun l r => l.2 ≠ r.2) :=
    pairwise_map.1 (nodup_sortedBuilds h)
  refine (hle.and hne).imp_of_mem fun hl hr hlr => hlr.1.lt_of_ne fun heq => hlr.2 ?_
  obtain ⟨hltag, hlparse, hlbuild⟩ := mem_sortedBuilds.1 hl
  obtain ⟨hrtag, hrparse, hrbuild⟩ := mem_sortedBuilds.1 hr
  rw [← Version.toTag_of_parse_full (hvalid _ hltag) hlparse hlbuild.hasPatch,
    ← Version.toTag_of_parse_full (hvalid _ hrtag) hrparse hrbuild.hasPatch, heq]

theorem map_fst_selectFamily (family : Version) (keepBuilds : Option UInt32)
    (listing : List String) :
    (selectFamily family keepBuilds listing).map Prod.fst =
      (sortedBuilds family listing).map Prod.snd ++
        (listing.foldl (sortTag family) ([], none)).2.toList := by
  have hbuilds : (sortedBuilds family listing).zipIdx.map (fun build => build.1.2) =
      (sortedBuilds family listing).map Prod.snd := by
    conv_rhs => rw [← List.zipIdx_map_fst 0 (sortedBuilds family listing), List.map_map]
    rfl
  simp [selectFamily, Function.comp_def, hbuilds]

theorem exists_of_mem_selectFamily {keep : UInt32}
    (h : (tag, none) ∈ selectFamily family (some keep) listing) :
    ∃ (i : ℕ) (v : Version), (sortedBuilds family listing)[i]? = some (v, tag) ∧
      i + keep.toNat < (sortedBuilds family listing).length := by
  rw [selectFamily, List.mem_append, List.mem_map] at h
  rcases h with ⟨⟨⟨v, u⟩, i⟩, hmem, heq⟩ | h
  · obtain ⟨rfl, hkept⟩ := Prod.mk.inj heq
    have hbuild := mem_zipIdx_iff_getElem?.1 hmem
    split_ifs at hkept with hlt
    refine ⟨i, v, hbuild, ?_⟩
    simp only [map_some, getD_some] at hlt
    omega
  · simp at h

end Family

theorem Selects.valid {listed : Finset String} (hlisted : ∀ tag ∈ listed, isRegistryTag tag = true)
    {selection : PruneSelection} {selected : List (String × Option PruneReason)}
    (h : Selects listed selection selected) : ∀ item ∈ selected, isRegistryTag item.1 = true := by
  intro item hitem
  cases selection with
  | tags args =>
    obtain rfl : selected = _ := h
    obtain ⟨tag, htag, rfl⟩ := mem_map.1 hitem
    obtain ⟨arg, -, rfl⟩ := mem_map.1 (mem_eraseDups.1 htag)
    have hparsed := arg.parsed
    rw [parseTag] at hparsed
    split_ifs at hparsed with _ hvalid
    simpa using hvalid
  | prerelease family keepBuilds =>
    obtain ⟨listing, -, hlisting, rfl⟩ := h
    have hmem := mem_map_of_mem (f := Prod.fst) hitem
    rw [map_fst_selectFamily, mem_append] at hmem
    rcases hmem with hmem | hmem
    · obtain ⟨build, hbuild, heq⟩ := mem_map.1 hmem
      rw [← heq]
      exact hlisted _ ((hlisting _).1 (mem_sortedBuilds.1 hbuild).1)
    · exact hlisted _ ((hlisting _).1 (of_mem_rolling hmem).1)

/-! ### The report -/

variable {σ : Type} {remote : Remote σ} {tags : σ → Finset String} {target : PruneTarget}
  {request : PruneRequest} {selected : List (String × Option PruneReason)}

/-- Every row is about a tag of the grammar; a row in the root is about a tag of the root, and when
it is reported as gone, it is gone. -/
def Gone (target : PruneTarget) (tags : σ → Finset String) (s : Session σ) : Prop :=
  ∀ row ∈ s.outcome.tags, isRegistryTag row.tag = true ∧
    (row.inRoot = true → (target.row row.tag).isSome = true ∧
      (row.isGone = true → row.tag ∉ tags s.remote))

variable {s : Session σ}

theorem Gone.mono {t : Session σ} (h : Gone target tags s)
    (hremote : tags t.remote ⊆ tags s.remote) (houtcome : t.outcome = s.outcome) :
    Gone target tags t := by
  intro row hrow
  rw [houtcome] at hrow
  obtain ⟨hvalid, hroot⟩ := h row hrow
  exact ⟨hvalid, fun hin => ⟨(hroot hin).1, fun hgone hmem => (hroot hin).2 hgone (hremote hmem)⟩⟩

/-- The verdicts and the rows of the report belong to the selected tags, one by one. -/
structure Reported (target : PruneTarget) (request : PruneRequest)
    (selected : List (String × Option PruneReason)) (verdicts : List Verdict)
    (rows : List PruneTag) : Prop where
  tag : rows.map (·.tag) = selected.map Prod.fst
  length : verdicts.length = selected.length
  /-- A verdict to delete is about a tag that is not kept and may be deleted. -/
  delete : ∀ (i : ℕ) (item : String × Option PruneReason), selected[i]? = some item →
    verdicts[i]? = some .delete → item.2 = none ∧ Allowed target request.force item.1
  refused : ∀ row ∈ rows, row.action = .refused →
    row.reason = some .durable ∨ row.reason = some .notInIndex

theorem Reported.snoc (h : Reported target request selected verdicts rows)
    {verdict : Verdict} {inRoot : Bool} (hjudges : Judges target request.force item verdict inRoot)
    (digest : Option Digest) :
    Reported target request (selected ++ [item]) (verdicts ++ [verdict])
      (rows ++ [⟨item.1, digest, (rowState request.dryRun verdict).1,
        (rowState request.dryRun verdict).2, inRoot⟩]) where
  tag := by simp [h.tag]
  length := by simp [h.length]
  delete i other hother hverdict := by
    rcases lt_trichotomy i selected.length with hlt | rfl | hgt
    · rw [getElem?_append_left hlt] at hother
      rw [getElem?_append_left (h.length ▸ hlt)] at hverdict
      exact h.delete i other hother hverdict
    · rw [getElem?_concat_length] at hother
      rw [← h.length, getElem?_concat_length] at hverdict
      exact some.inj hother ▸ hjudges.delete (some.inj hverdict)
    · rw [getElem?_eq_none (by simp; omega)] at hother
      cases hother
  refused row hrow haction := by
    rcases mem_append.1 hrow with hrow | hrow
    · exact h.refused row hrow haction
    · obtain rfl := mem_singleton.1 hrow
      cases verdict with
      | refuse reason => simpa [rowState] using hjudges.refuse reason rfl
      | keep reason => simp [rowState] at haction
      | absent => simp [rowState] at haction
      | delete =>
        simp only [rowState] at haction
        split_ifs at haction

/-- What the judging leaves behind. -/
structure Judged (tags : σ → Finset String) (target : PruneTarget) (request : PruneRequest)
    (selected : List (String × Option PruneReason)) (verdicts : List Verdict) (s : Session σ) :
    Prop where
  /-- No request to delete was made. -/
  deletes : s.deletes = []
  /-- The report is true. -/
  gone : Gone target tags s
  reported : Reported target request selected verdicts s.outcome.tags

theorem meets_judgeRow (hremote : remote.Lawful target.repository tags)
    (hvalid : isRegistryTag item.1 = true) :
    Meets (Judged tags target request selected verdicts) (judgeRow remote target request item)
      (fun verdict => Judged tags target request (selected ++ [item]) (verdicts ++ [verdict]))
      (fun _ s => s.deletes = [] ∧ Gone target tags s) := by
  refine of_pre fun s hs => ?_
  refine bind ((meets_judge hremote s item request.force).conseq (fun _ h => h)
    (fun _ _ h => h) fun _ t ht => ⟨ht.2.1.trans hs.deletes, hs.gone.mono ht.1 ht.2.2⟩)
    fun judged => ?_
  refine bind (Q := fun _ => Judged tags target request (selected ++ [item])
    (verdicts ++ [judged.1])) (modify ?_) fun _ => pure fun _ h => h
  rintro t ⟨hjudges, hreads⟩
  have hgone := hs.gone.mono hreads.1 hreads.2.2
  refine ⟨hreads.2.1.trans hs.deletes, ?_, ?_⟩
  · intro row hrow
    rcases mem_append.1 hrow with hrow | hrow
    · exact hgone row hrow
    · obtain rfl := mem_singleton.1 hrow
      refine ⟨hvalid, fun hin => ⟨hjudges.inRoot ▸ hin, fun hgone => ?_⟩⟩
      -- a row in the root is not reported as gone by its verdict
      cases hverdict : judged.1 with
      | absent => exact absurd hin (by simp [hjudges.absent hverdict])
      | keep reason => simp [PruneTag.isGone, rowState, hverdict] at hgone
      | refuse reason => simp [PruneTag.isGone, rowState, hverdict] at hgone
      | delete =>
        simp only [PruneTag.isGone, rowState, hverdict] at hgone
        split_ifs at hgone <;> simp at hgone
  · rw [hreads.2.2]
    exact hs.reported.snoc hjudges judged.2.1

/-! ### The refusal -/

theorem Gone.stopped (h : Gone target tags s) :
    Gone target tags { s with outcome.tags := s.outcome.tags.map stopped } := by
  intro row hrow
  obtain ⟨old, hold, rfl⟩ := mem_map.1 hrow
  obtain ⟨hvalid, hroot⟩ := h old hold
  unfold Prune.stopped
  split_ifs with haction
  · exact ⟨hvalid, fun hin => ⟨(hroot hin).1, fun hgone => by simp [PruneTag.isGone] at hgone⟩⟩
  · exact ⟨hvalid, hroot⟩

theorem refusedTags_eq_nil_iff {outcome : PruneOutcome} {reason : PruneReason} :
    refusedTags outcome reason = [] ↔
      ∀ row ∈ outcome.tags, row.action = .refused → row.reason ≠ some reason := by
  simp [refusedTags, filter_eq_nil_iff]

theorem meets_checkRefused :
    Meets (Judged tags target request selected verdicts) (checkRefused target)
      (fun _ s => Judged tags target request selected verdicts s ∧
        ∀ row ∈ s.outcome.tags, row.action ≠ .refused)
      (fun _ s => s.deletes = [] ∧ Gone target tags s) := by
  refine of_pre fun s hs => ?_
  refine bind (Q := fun t w => t = s ∧ w = s) (get ?_) fun t => ?_
  · rintro _ rfl
    exact ⟨rfl, rfl⟩
  · refine ite (fun hnone => pure ?_) fun _ => ?_
    · rintro _ ⟨rfl, rfl⟩
      rw [refusedTags_eq_nil_iff, refusedTags_eq_nil_iff] at hnone
      refine ⟨hs, fun row hrow haction => ?_⟩
      exact (hs.reported.refused row hrow haction).elim (hnone.1 row hrow haction)
        (hnone.2 row hrow haction)
    · refine bind (Q := fun _ w => w.deletes = [] ∧ Gone target tags w) (modify ?_)
        fun _ => throw fun _ h => h
      rintro _ ⟨rfl, rfl⟩
      exact ⟨hs.deletes, hs.gone.stopped⟩

/-! ### The deletions -/

/-- The requests to delete made so far: each is for one of the first `n` selected tags, in their
order, none of them kept, all of them allowed. -/
def Deletes (target : PruneTarget) (request : PruneRequest)
    (selected : List (String × Option PruneReason)) (deletes : List PackageRef) : Prop :=
  ∃ done : List String, deletes = done.map target.repository.cloneWithTag ∧
    done.Sublist ((selected.filter (·.2.isNone)).map Prod.fst) ∧
    ∀ tag ∈ done, Allowed target request.force tag

theorem Deletes.append (h : Deletes target request selected deletes)
    (more : List (String × Option PruneReason)) :
    Deletes target request (selected ++ more) deletes := by
  obtain ⟨done, hdone, hsub, hallowed⟩ := h
  refine ⟨done, hdone, hsub.trans ?_, hallowed⟩
  rw [filter_append, map_append]
  exact sublist_append_left _ _

theorem Deletes.snoc (h : Deletes target request selected deletes)
    {tag : String} (hallowed : Allowed target request.force tag) :
    Deletes target request (selected ++ [(tag, none)])
      (deletes ++ [target.repository.cloneWithTag tag]) := by
  obtain ⟨done, hdone, hsub, hall⟩ := h
  refine ⟨done ++ [tag], by simp [hdone], ?_, ?_⟩
  · rw [filter_append, map_append]
    exact hsub.append (List.Sublist.refl _)
  · intro u hu
    rcases mem_append.1 hu with hu | hu
    · exact hall u hu
    · exact mem_singleton.1 hu ▸ hallowed

/-- The session while tags are deleted, the first of them done. -/
structure Deleting (tags : σ → Finset String) (target : PruneTarget) (request : PruneRequest)
    (selected first : List (String × Option PruneReason)) (s : Session σ) : Prop where
  /-- The report is true. -/
  gone : Gone target tags s
  tag : s.outcome.tags.map (·.tag) = selected.map Prod.fst
  calm : ∀ row ∈ s.outcome.tags, row.action ≠ .refused
  /-- Only allowed requests to delete were made. -/
  deletes : Deletes target request first s.deletes

theorem map_tag_setAction (position : ℕ) (action : PruneAction) (rows : List PruneTag) :
    (setAction position action rows).map (·.tag) = rows.map (·.tag) := by
  induction rows generalizing position with
  | nil => simp [setAction]
  | cons row rows ih => cases position <;> simp_all [setAction]

theorem mem_setAction {row : PruneTag}
    (h : row ∈ setAction position action rows) : row ∈ rows ∨
      ∃ old, rows[position]? = some old ∧ row = { old with action := action } := by
  obtain ⟨i, hi⟩ := mem_iff_getElem?.1 h
  rw [setAction, getElem?_modify] at hi
  obtain ⟨old, hold, rfl⟩ := map_eq_some_iff.1 hi
  split_ifs with heq
  · exact .inr ⟨old, heq ▸ hold, rfl⟩
  · exact .inl (mem_of_getElem? hold)

theorem Deleting.deletesOne {t : Session σ}
    (h : Deleting tags target request selected first s) {tag : String}
    (hallowed : Allowed target request.force tag)
    (hone : DeletesOne tags (target.repository.cloneWithTag tag) s t) :
    Deleting tags target request selected (first ++ [(tag, none)]) t where
  gone := h.gone.mono hone.1 hone.2.1
  tag := hone.2.1 ▸ h.tag
  calm := hone.2.1 ▸ h.calm
  deletes := by
    rcases hone.2.2 with heq | heq
    · exact heq ▸ h.deletes.append _
    · exact heq ▸ h.deletes.snoc hallowed

theorem Deleting.setAction (h : Deleting tags target request selected first s) {row : PruneTag}
    (hrow : s.outcome.tags[position]? = some row) (hgone : row.tag ∉ tags s.remote)
    (haction : action ≠ .refused) :
    Deleting tags target request selected first
      { s with outcome.tags := Prune.setAction position action s.outcome.tags } where
  gone := by
    intro row' hrow'
    rcases mem_setAction hrow' with hold | ⟨old, hold, rfl⟩
    · exact h.gone row' hold
    · obtain rfl := some.inj (hrow.symm.trans hold)
      obtain ⟨hvalid, hroot⟩ := h.gone row (mem_of_getElem? hrow)
      exact ⟨hvalid, fun hin => ⟨(hroot hin).1, fun _ => hgone⟩⟩
  tag := (map_tag_setAction _ _ _).trans h.tag
  calm := by
    intro row' hrow'
    rcases mem_setAction hrow' with hold | ⟨old, -, rfl⟩
    · exact h.calm row' hold
    · exact haction
  deletes := h.deletes

theorem meets_deleteRow (hremote : remote.Lawful target.repository tags)
    {verdict : Verdict} (hitem : selected[position]? = some item)
    (hdelete : verdict = .delete → item.2 = none ∧ Allowed target request.force item.1) :
    Meets (Deleting tags target request selected first)
      (deleteRow remote target (verdict, position))
      (fun _ => Deleting tags target request selected (first ++ [item]))
      (fun _ => Deleting tags target request selected (first ++ [item])) := by
  refine of_pre fun s hs => ?_
  refine bind (Q := fun t w => t = s ∧ w = s) (get ?_) fun t => ?_
  · rintro _ rfl
    exact ⟨rfl, rfl⟩
  · refine of_pre ?_
    rintro _ ⟨rfl, rfl⟩
    dsimp only
    split
    · next row hrow =>
      obtain ⟨tag, kept⟩ := item
      obtain ⟨rfl, hallowed⟩ := hdelete rfl
      have htag : row.tag = tag := by
        have := congrArg (·[position]?) hs.tag
        simpa [hrow, hitem] using this
      subst htag
      have hvalid := (hs.gone row (mem_of_getElem? hrow)).1
      refine bind ((meets_deleteAndConfirm hremote _ hvalid).conseq (fun _ h => h)
        (fun _ _ h => h) fun _ w hw => hs.deletesOne hallowed hw) fun action => ?_
      refine modify fun w ⟨hgone, haction, hone⟩ => ?_
      have hw := hs.deletesOne hallowed hone
      exact hw.setAction (hone.2.1 ▸ hrow) hgone haction
    · refine pure ?_
      rintro _ rfl
      exact { hs with deletes := hs.deletes.append [item] }

theorem Deleting.append (h : Deleting tags target request selected first s)
    (more : List (String × Option PruneReason)) :
    Deleting tags target request selected (first ++ more) s :=
  { h with deletes := h.deletes.append more }

theorem meets_deleteRows (hremote : remote.Lawful target.repository tags)
    (hlength : verdicts.length = selected.length)
    (hdelete : ∀ (i : ℕ) (item : String × Option PruneReason), selected[i]? = some item →
      verdicts[i]? = some .delete → item.2 = none ∧ Allowed target request.force item.1) :
    Meets (Deleting tags target request selected [])
      (verdicts.zipIdx.forM (deleteRow remote target))
      (fun _ => Deleting tags target request selected selected)
      (fun _ => Deleting tags target request selected selected) := by
  have hloop := forM (f := deleteRow remote target)
    (E := fun _ => Deleting tags target request selected selected)
    (fun done => Deleting tags target request selected (selected.take done.length))
    verdicts.zipIdx fun done rest c hc => ?_
  · refine hloop.conseq (fun _ h => by simpa using h) (fun _ s h => ?_) fun _ _ h => h
    simpa [hlength] using h
  · -- the loop is at the position that the visited verdicts have reached
    have hat : verdicts.zipIdx[done.length]? = some c := by simp [hc]
    rw [getElem?_zipIdx] at hat
    obtain ⟨verdict, hverdict, rfl⟩ := map_eq_some_iff.1 hat
    have hlt : done.length < selected.length := by
      rw [← hlength]
      exact (List.getElem?_eq_some_iff.1 hverdict).1
    have hitem := getElem?_eq_getElem hlt
    have htake : selected.take (done.length + 1) =
        selected.take done.length ++ [selected[done.length]] := by
      rw [take_add_one, hitem]
      rfl
    rw [Nat.zero_add]
    refine (meets_deleteRow hremote hitem fun heq =>
      hdelete _ _ hitem (heq ▸ hverdict)).conseq (fun _ h => h) (fun _ s h => ?_) fun _ s h => ?_
    · rwa [length_append, length_singleton, htake]
    · rw [← htake] at h
      have hall := h.append (selected.drop (done.length + 1))
      rwa [take_append_drop] at hall

end Prune

end Ocx
