import Ocx.Prune.Basic

/-!
# The steps of a prune run

What each step of a run does to the session, for a registry that answers truthfully. Selecting and
judging only read: they leave the report and the recorded requests alone. A deletion makes one
request, and succeeds only after the tag was read as absent.
-/

namespace Ocx

/-- A registry that answers truthfully about the tags of a repository, and that only loses tags. -/
structure Remote.Lawful {σ : Type} (remote : Remote σ) (repository : PackageRef)
    (tags : σ → Finset String) : Prop where
  /-- Every tag is in the grammar. -/
  valid : ∀ s, ∀ tag ∈ tags s, isRegistryTag tag = true
  /-- A listing has every tag once. -/
  listed : ∀ s listing s',
    remote.listTags s { repository with tag := none, digest := none } = (.ok listing, s') →
    listing.Nodup ∧ ∀ tag, tag ∈ listing ↔ tag ∈ tags s
  /-- A repository that does not exist has no tags. -/
  notFound : ∀ s name s',
    remote.listTags s { repository with tag := none, digest := none } =
      (.error (.repositoryNotFound name), s') → tags s = ∅
  absent : ∀ s tag s', isRegistryTag tag = true →
    remote.probeManifest s (repository.cloneWithTag tag) = (.ok .absent, s') → tag ∉ tags s'
  listTags_subset : ∀ s reference, tags (remote.listTags s reference).2 ⊆ tags s
  /-- A read adds no tag. -/
  probeManifest_subset : ∀ s reference, tags (remote.probeManifest s reference).2 ⊆ tags s
  deleteManifest_subset : ∀ s reference, tags (remote.deleteManifest s reference).2 ⊆ tags s

open Meets

namespace Prune

variable {σ : Type} {remote : Remote σ} {tags : σ → Finset String}

/-! ### Reads -/

/-- Only the registry went on, without a new tag. -/
def Reads (tags : σ → Finset String) (s t : Session σ) : Prop :=
  tags t.remote ⊆ tags s.remote ∧ t.deletes = s.deletes ∧ t.outcome = s.outcome

theorem Reads.refl (s : Session σ) : Reads tags s s := ⟨Finset.Subset.refl _, rfl, rfl⟩

theorem Reads.trans {s t w : Session σ} (h : Reads tags s t) (h' : Reads tags t w) :
    Reads tags s w :=
  ⟨h'.1.trans h.1, h'.2.1.trans h.2.1, h'.2.2.trans h.2.2⟩

theorem meets_call {α : Type} {request : σ → Except ClientError α × σ} (s : Session σ)
    (hrequest : tags (request s.remote).2 ⊆ tags s.remote) {E : PruneError → Session σ → Prop} :
    Meets (· = s) (call request)
      (fun answer t => request s.remote = (answer, t.remote) ∧ Reads tags s t) E := by
  rintro _ rfl
  exact ⟨rfl, hrequest, rfl, rfl⟩

theorem meets_orRegistry {α : Type} {answer : Except ClientError α} {P R : Session σ → Prop}
    (h : ∀ t, P t → R t) :
    Meets P (orRegistry answer) (fun a t => answer = .ok a ∧ P t) fun _ => R := by
  cases answer with
  | ok a => exact pure fun t ht => ⟨rfl, ht⟩
  | error e => exact throw h

variable {target : PruneTarget} (hremote : remote.Lawful target.repository tags)
include hremote

theorem meets_probe (s : Session σ) (tag : String) :
    Meets (· = s) (probeManifestCanonical remote (target.repository.cloneWithTag tag))
      (fun presence t =>
        (isRegistryTag tag = true → presence = .absent → tag ∉ tags t.remote) ∧ Reads tags s t)
      (fun _ => Reads tags s) := by
  refine ite (fun _ => throw ?_) fun _ => ?_
  · rintro _ rfl
    exact Reads.refl _
  · refine (meets_call s (hremote.probeManifest_subset _ _)).bind fun answer => ?_
    refine (meets_orRegistry fun t ht => ht.2).conseq (fun t ht => ht) ?_ fun _ _ h => h
    rintro presence t ⟨rfl, hprobe, hreads⟩
    refine ⟨?_, hreads⟩
    rintro htag rfl
    exact hremote.absent _ tag _ htag hprobe

/-! ### Selecting -/

/-- What a run selects from a registry with these tags. -/
def Selects (listed : Finset String) :
    PruneSelection → List (String × Option PruneReason) → Prop
  | .tags args, selected => selected = (args.map (·.value)).eraseDups.map fun tag => (tag, none)
  | .prerelease family keepBuilds, selected => ∃ listing : List String, listing.Nodup ∧
    (∀ tag, tag ∈ listing ↔ tag ∈ listed) ∧
    selected = selectFamily family.version keepBuilds listing

theorem meets_listTagsOrEmpty (s : Session σ) :
    Meets (· = s) (listTagsOrEmpty remote { target.repository with tag := none, digest := none })
      (fun listing t => (listing.Nodup ∧ ∀ tag, tag ∈ listing ↔ tag ∈ tags s.remote) ∧
        Reads tags s t)
      (fun _ => Reads tags s) := by
  refine (meets_call s (hremote.listTags_subset _ _)).bind fun answer => ?_
  split
  · refine pure ?_
    rintro t ⟨hlist, hreads⟩
    simp [hremote.notFound _ _ _ hlist, hreads]
  · refine (meets_orRegistry fun t ht => ht.2).conseq (fun t ht => ht) ?_ fun _ _ h => h
    rintro listing t ⟨rfl, hlist, hreads⟩
    exact ⟨hremote.listed _ _ _ hlist, hreads⟩

theorem meets_select (s : Session σ) (selection : PruneSelection) :
    Meets (· = s) (select remote target selection)
      (fun selected t => Selects (tags s.remote) selection selected ∧ Reads tags s t)
      (fun _ => Reads tags s) := by
  cases selection with
  | tags args =>
    refine pure ?_
    rintro _ rfl
    exact ⟨rfl, Reads.refl _⟩
  | prerelease family keepBuilds =>
    refine (meets_listTagsOrEmpty hremote s).bind fun listing => ?_
    refine pure ?_
    rintro t ⟨⟨hnodup, hlisting⟩, hreads⟩
    exact ⟨⟨listing, hnodup, hlisting, rfl⟩, hreads⟩

/-! ### Judging -/

/-- The tag may be deleted: the root marks it as ephemeral, or the run is forced. -/
def Allowed (target : PruneTarget) (force : Bool) (tag : String) : Prop :=
  force = true ∨ ∃ row, target.row tag = some row ∧ row.ephemeral = true

/-- What a verdict says about a selected tag. -/
structure Judges (target : PruneTarget) (force : Bool) (item : String × Option PruneReason)
    (verdict : Verdict) (listed : Bool) : Prop where
  /-- The flag tells whether the root lists the tag. -/
  inRoot : listed = (target.row item.1).isSome
  /-- A tag that is deleted is not kept, and may be deleted. -/
  delete : verdict = .delete → item.2 = none ∧ Allowed target force item.1
  /-- A tag of the root is not taken for absent. -/
  absent : verdict = .absent → listed = false
  /-- The safeguard has two reasons. -/
  refuse : ∀ reason, verdict = .refuse reason → reason = .durable ∨ reason = .notInIndex

theorem meets_judge (s : Session σ) (item : String × Option PruneReason) (force : Bool) :
    Meets (· = s) (judge remote target item.1 item.2 force)
      (fun judged t => Judges target force item judged.1 judged.2.2 ∧ Reads tags s t)
      (fun _ => Reads tags s) := by
  obtain ⟨tag, kept⟩ := item
  cases kept with
  | some reason =>
    refine pure ?_
    rintro _ rfl
    exact ⟨⟨rfl, by simp, by simp, by simp⟩, Reads.refl _⟩
  | none =>
    cases hrow : target.row tag with
    | some row =>
      simp only [judge, hrow]
      refine pure ?_
      rintro _ rfl
      refine ⟨⟨by simp [hrow], ?_, ?_, ?_⟩, Reads.refl _⟩
      · intro hverdict
        refine ⟨rfl, ?_⟩
        by_cases heph : row.ephemeral = true
        · exact .inr ⟨row, hrow, heph⟩
        · cases force <;> simp_all [Allowed]
      · split_ifs <;> simp
      · intro reason hreason
        split_ifs at hreason
        exact .inl (Verdict.refuse.inj hreason).symm
    | none =>
      simp only [judge, hrow]
      refine (meets_probe hremote s tag).bind fun presence => ?_
      cases presence with
      | present digest =>
        refine pure fun t ht => ?_
        refine ⟨⟨by simp [hrow], ?_, by simp, ?_⟩, ht.2⟩
        · cases force <;> simp [Allowed]
        · intro reason hreason
          split_ifs at hreason
          exact .inr (Verdict.refuse.inj hreason).symm
      | absent => exact pure fun t ht => ⟨⟨by simp [hrow], by simp, by simp, by simp⟩, ht.2⟩

/-! ### Deleting -/

/-- At most one request to delete the tag was made. -/
def DeletesOne (tags : σ → Finset String) (reference : PackageRef) (s t : Session σ) : Prop :=
  tags t.remote ⊆ tags s.remote ∧ t.outcome = s.outcome ∧
    (t.deletes = s.deletes ∨ t.deletes = s.deletes ++ [reference])

omit hremote in
theorem DeletesOne.reads {reference : PackageRef} {s t w : Session σ}
    (h : DeletesOne tags reference s t) (h' : Reads tags t w) : DeletesOne tags reference s w :=
  ⟨h'.1.trans h.1, h'.2.2.trans h.2.1, h'.2.1 ▸ h.2.2⟩

theorem meets_deleteTag (s : Session σ) (reference : PackageRef)
    {E : PruneError → Session σ → Prop} :
    Meets (· = s) (deleteTag remote reference) (fun _ => DeletesOne tags reference s) E := by
  have hnone : ∀ t, t = s → DeletesOne tags reference s t := by
    rintro _ rfl
    exact ⟨Finset.Subset.refl _, rfl, .inl rfl⟩
  refine ite (fun _ => pure hnone) fun _ => ite (fun _ => pure hnone)
    fun _ => ?_
  rintro _ rfl
  exact ⟨hremote.deleteManifest_subset _ _, rfl, .inr rfl⟩

theorem meets_confirm (s : Session σ) {tag : String} (htag : isRegistryTag tag = true)
    (answer : DeleteOutcome) (tries : ℕ) :
    Meets (Reads tags s) (confirm remote target.repository tag answer tries)
      (fun action t => tag ∉ tags t.remote ∧ action ≠ .refused ∧ Reads tags s t)
      (fun _ => Reads tags s) := by
  induction tries with
  | zero => exact throw fun _ h => h
  | succ tries ih =>
    refine of_pre fun t ht => ?_
    refine ((meets_probe hremote t tag).conseq (fun _ h => h) (fun _ _ h => h)
      fun _ w hw => ht.trans hw).bind fun presence => ?_
    cases presence with
    | present digest => exact ih.conseq (fun w hw => ht.trans hw.2) (fun _ _ h => h) fun _ _ h => h
    | absent =>
      refine pure fun w hw => ⟨hw.1 htag rfl, ?_, ht.trans hw.2⟩
      split_ifs <;> simp

/-- **A deletion** makes at most one request, and succeeds only when the tag is gone. -/
theorem meets_deleteAndConfirm (s : Session σ) {tag : String} (htag : isRegistryTag tag = true) :
    Meets (· = s) (deleteAndConfirm remote target.repository tag)
      (fun action t => tag ∉ tags t.remote ∧ action ≠ .refused ∧
        DeletesOne tags (target.repository.cloneWithTag tag) s t)
      (fun _ => DeletesOne tags (target.repository.cloneWithTag tag) s) := by
  refine (meets_deleteTag hremote s _).bind fun answer => ?_
  split
  · refine of_pre fun t ht => ?_
    refine (meets_confirm hremote t htag _ _).conseq ?_ ?_ ?_
    · rintro _ rfl
      exact Reads.refl _
    · rintro action w ⟨hgone, hne, hreads⟩
      exact ⟨hgone, hne, ht.reads hreads⟩
    · exact fun _ w hw => ht.reads hw
  · exact throw fun _ h => h
  · exact throw fun _ h => h

end Prune

end Ocx
