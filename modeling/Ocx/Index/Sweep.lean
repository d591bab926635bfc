import Ocx.Index.Grow
import Ocx.Util.Interleave

/-!
# Concurrent refreshes of one package

A refresh of a published package has three steps.  It stages the dispatch objects of the tags it is
about to adopt, unless they are there already; it merges the fetched root into the local copy under
the catalog lock, and notes which digests were pinned before and after; and it removes the objects
that were pinned before and are no longer.  Staging comes before the lock and removing after it, so
the steps of several refreshes can come in any order.

The removal goes by what was pinned when this refresh merged.  Another refresh can pin such a digest
again before the removal, or can have found its object before the removal and pin it after.  Either
way the object is gone and the digest is pinned.
-/

namespace Ocx

open Option

/-! ### Pins -/

theorem read_settle_content {old : Option TagRow} {entry : TagRow} {tag : RootTag}
    (h : RootTag.read (settle old entry) = some tag) :
    ∃ listed, RootTag.read entry = some listed ∧ listed.content = tag.content := by
  unfold settle at h
  split_ifs at h
  · cases entry with
    | object members =>
      rw [read_stripEphemeral] at h
      obtain ⟨listed, hlisted, rfl⟩ := map_eq_some_iff.1 h
      exact ⟨listed, hlisted, rfl⟩
    | _ => exact ⟨tag, h, rfl⟩
  · exact ⟨tag, h, rfl⟩

theorem mem_or_of_foldl_adoptRow {entries : List (String × TagRow)} {acc : TagRows × Bool}
    {tag : String} {row : TagRow} (h : (entries.foldl adoptRow acc).1[tag]? = some row) :
    (∃ entry old, (tag, entry) ∈ entries ∧ row = settle old entry) ∨ acc.1[tag]? = some row := by
  induction entries generalizing acc with
  | nil => exact .inr h
  | cons e entries ih =>
    rcases ih h with ⟨entry, old, hmem, rfl⟩ | hrow
    · exact .inl ⟨entry, old, List.mem_cons_of_mem _ hmem, rfl⟩
    · rw [getElem?_adoptRow] at hrow
      split_ifs at hrow with htag
      · refine .inl ⟨e.2, acc.1[tag]?, ?_, (some.inj hrow).symm⟩
        rw [htag]
        exact List.mem_cons_self
      · exact .inr hrow

namespace DocCodec

variable {β : Type} (c : DocCodec β)

/-- A copy that a merge can take apart, or one that it replaces because it cannot be read. -/
def mergeable (copy : Option β) : Bool :=
  copy.all fun text =>
    match c.parse text with
    | some (.object _) => true
    | _ => (c.readRoot text).isNone

variable {c} {copy : Option β}

theorem mem_publishedPins_iff {d : Digest} :
    d ∈ c.publishedPins copy ↔ ∃ name entry, c.tag copy name = some entry ∧ entry.content = d := by
  unfold publishedPins tag
  cases copy.bind c.readRoot with
  | none => simp
  | some root =>
    simp

theorem tags_adoptFields (scope : RootScope) (doc : RootDoc) (fields : DocFields) :
    (adoptFields scope doc fields).1["tags"]? = fields["tags"]? := by
  cases scope with
  | tags named => rfl
  | routing => rfl
  | package =>
    cases doc with
    | object f => simpa using getElem?_adoptFields .package f fields "tags"
    | _ => rfl

variable {fetched bytes : β} {doc : RootDoc} {scope : RootScope} {root : IndexRoot}
  {fields : DocFields}

theorem mergeRoot_of_object (hdoc : c.parse fetched = some doc)
    (hstart : ((if (copy.any fun text => (c.readRoot text).isSome) then copy else none).bind
      c.parse).getD (withoutTags doc) = .object fields)
    (htags : ∀ node, fields["tags"]? = some node → ∃ rows, node = .object rows)
    (h : c.mergeRoot copy fetched scope = some bytes) :
    ∃ (adopted : List (String × TagRow)) (fields' : DocFields) (kept : TagRows),
      adoptedRows copy.isSome (copy.any fun text => (c.readRoot text).isSome) doc scope =
        some adopted ∧
      c.mergeDoc copy fetched scope =
        some (some (.object (fields'.insert "tags" (.object kept)))) ∧
      bytes = c.write (.object (fields'.insert "tags" (.object kept))) ∧
      ∀ (name : String) (row : TagRow), kept[name]? = some row →
        (∃ entry old, (name, entry) ∈ adopted ∧ row = settle old entry) ∨
          (rowsOf fields)[name]? = some row := by
  have hadopt : ((adoptFields scope doc fields).1["tags"]?).getD (.object ∅) =
      .object (rowsOf fields) := by
    rw [tags_adoptFields]
    exact getD_tags htags
  obtain ⟨written, hmerge, rfl⟩ := map_eq_some_iff.1 h
  have hwritten := hmerge
  simp only [mergeDoc, hdoc, bind_eq_bind, bind_some, hstart, hadopt,
    bind_eq_some_iff, ite_none_right_eq_some, some.injEq] at hwritten
  obtain ⟨adopted, hadopted, -, rfl⟩ := hwritten
  refine ⟨adopted, _, _, hadopted, hmerge, rfl, fun name row hrow => ?_⟩
  rw [Std.ExtTreeMap.getElem?_filter', filter_eq_some_iff] at hrow
  exact mem_or_of_foldl_adoptRow hrow.1

theorem tag_of_adopted (hread : IndexRoot.read doc = some root) {committed usable : Bool}
    {adopted : List (String × TagRow)} (h : adoptedRows committed usable doc scope = some adopted)
    {name : String} {row : TagRow} (hmem : (name, row) ∈ adopted) :
    scope.includes name = true ∧ root.tags[name]? = RootTag.read row := by
  cases doc with
  | object f =>
    have hreadable := IndexRoot.read_isSome_iff.1 (by rw [hread]; rfl)
    obtain ⟨hscope, hrow⟩ := (mem_adoptedRows hreadable h (name, row)).1 hmem
    exact ⟨hscope, by rw [IndexRoot.getElem?_tags hread, hrow, bind_some]⟩
  | _ =>
    -- no other document lists a row by name
    cases scope <;> simp_all [adoptedRows, JsonNode.get]

/-- **A merge pins only what was pinned, or what the fetched root lists in its scope.** -/
theorem tag_mergeRoot (hc : c.Lawful) (hcopy : c.mergeable copy = true) (hscope : scope ≠ .routing)
    (hfetched : c.readRoot fetched = some root) (h : c.mergeRoot copy fetched scope = some bytes)
    {name : String} {entry : RootTag} (hentry : c.tag (some bytes) name = some entry) :
    c.tag copy name = some entry ∨
      scope.includes name = true ∧
        ∃ listed, root.tags[name]? = some listed ∧ listed.content = entry.content := by
  obtain ⟨doc, hdoc⟩ : ∃ doc, c.parse fetched = some doc := by
    by_contra hnone
    simp [mergeRoot, mergeDoc, eq_none_iff_forall_not_mem.2 fun doc h => hnone ⟨doc, h⟩] at h
  have hread := hc.read_of_parse _ _ _ hdoc hfetched
  -- what a document written over `fields` has under a tag
  have hobject : ∀ fields : DocFields,
      ((if (copy.any fun text => (c.readRoot text).isSome) then copy else none).bind
        c.parse).getD (withoutTags doc) = .object fields →
      (∀ node, fields["tags"]? = some node → ∃ rows, node = .object rows) →
      (∃ row, (rowsOf fields)[name]? = some row ∧ RootTag.read row = some entry) ∨
        scope.includes name = true ∧
          ∃ listed, root.tags[name]? = some listed ∧ listed.content = entry.content := by
    intro fields hstart htags
    obtain ⟨adopted, fields', kept, hadopted, hmerge, rfl, hkept⟩ :=
      mergeRoot_of_object hdoc hstart htags h
    rw [tag, bind_some, hc.readRoot_write _ _ _ _ hmerge] at hentry
    obtain ⟨written, hwritten, hname⟩ := bind_eq_some_iff.1 hentry
    rw [IndexRoot.getElem?_tags hwritten, rowsOf_insert_tags] at hname
    obtain ⟨row, hrow, hreads⟩ := bind_eq_some_iff.1 hname
    rcases hkept name row hrow with ⟨listed, old, hmem, rfl⟩ | hold
    · obtain ⟨hin, htag⟩ := tag_of_adopted hread hadopted hmem
      obtain ⟨t, ht, hcontent⟩ := read_settle_content hreads
      exact .inr ⟨hin, t, htag.trans ht, hcontent⟩
    · exact .inl ⟨row, hold, hreads⟩
  by_cases husable : (copy.any fun text => (c.readRoot text).isSome) = true
  · cases copy with
    | none => simp at husable
    | some text =>
      obtain ⟨old, hold⟩ := isSome_iff_exists.1 husable
      obtain ⟨fields, hparse⟩ : ∃ fields, c.parse text = some (.object fields) := by
        rw [mergeable, all_some] at hcopy
        split at hcopy
        case h_1 fields hparse => exact ⟨fields, hparse⟩
        case h_2 => simp [hold] at hcopy
      have hreads := hc.read_of_parse _ _ _ hparse hold
      have hreadable := IndexRoot.read_isSome_iff.1 (by rw [hreads]; rfl)
      refine (hobject fields (by simp [husable, hparse]) hreadable.tags).imp_left ?_
      rintro ⟨row, hrow, hentry⟩
      rw [tag_of_object hold hreads, hrow, bind_some, hentry]
  · cases doc with
    | object f =>
      refine (hobject (f.insert "tags" (.object ∅)) (by simp [husable, withoutTags]) ?_).imp_left ?_
      · intro node hnode
        exact ⟨∅, by simpa [eq_comm] using hnode⟩
      · rintro ⟨row, hrow, -⟩
        simp [rowsOf_insert_tags] at hrow
    | array items =>
      -- the fetched document is taken as it is
      refine .inr ?_
      cases scope with
      | routing => exact absurd rfl hscope
      | tags named =>
        simp [mergeRoot, mergeDoc, hdoc, husable, adoptedRows, JsonNode.get] at h
      | package =>
        obtain rfl : fetched = bytes := by
          simpa [mergeRoot, mergeDoc, hdoc, husable, adoptedRows, withoutTags] using h
        rw [tag, bind_some, hfetched, bind_some] at hentry
        exact ⟨rfl, entry, hentry, rfl⟩
    | _ => simp [IndexRoot.read, JsonNode.record] at hread

theorem publishedPins_mergeRoot (hc : c.Lawful) (hcopy : c.mergeable copy = true)
    (hscope : scope ≠ .routing) (hfetched : c.readRoot fetched = some root)
    (h : c.mergeRoot copy fetched scope = some bytes) {d : Digest}
    (hd : d ∈ c.publishedPins (some bytes)) :
    d ∈ c.publishedPins copy ∨
      ∃ name entry, root.tags[name]? = some entry ∧ scope.includes name = true ∧
        entry.content = d := by
  obtain ⟨name, entry, hentry, rfl⟩ := mem_publishedPins_iff.1 hd
  rcases tag_mergeRoot hc hcopy hscope hfetched h hentry with
    hold | ⟨hin, listed, hlisted, hcontent⟩
  · exact .inl (mem_publishedPins_iff.2 ⟨name, entry, hold, rfl⟩)
  · exact .inr ⟨name, listed, hlisted, hin, hcontent⟩

end DocCodec

/-! ### A refresh, step by step -/

/-- What the local index has of a package. -/
structure PinStore (β : Type) where
  /-- The local copy of its root. -/
  root : Option β
  /-- The dispatch object is there, with the bytes its digest names. -/
  objects : Digest → Bool

/-- Every pinned digest has its object. -/
def AllPinned {β : Type} (c : DocCodec β) (S : PinStore β) : Prop :=
  ∀ d ∈ c.publishedPins S.root, S.objects d = true
deriving Decidable

/-- A refresh from a published source. -/
structure Refresh {β : Type} (c : DocCodec β) where
  fetched : β
  root : IndexRoot
  reads : c.readRoot fetched = some root
  /-- The tag to refresh; all of them if there is none. -/
  named : Option String
  /-- The source fails to deliver the object. -/
  fails : Digest → Bool

/-- The points between the steps of a refresh, each named after the step that comes next. -/
inductive RefreshPoint
  | stage
  | merge (scope : RootScope)
  | sweep (previous current : List Digest)
  | done
deriving DecidableEq

namespace Refresh

variable {β : Type} {c : DocCodec β} (r : Refresh c)

def inScope (tag : String) : Bool := r.named.all fun only => tag = only

def listed : List (String × RootTag) :=
  r.root.tags.toList.filter fun entry => r.inScope entry.1

/-- The object is not there and cannot be staged. -/
def unpersisted (S : PinStore β) (d : Digest) : Bool := !S.objects d && r.fails d

/-- The store after the objects were staged. -/
def staged (S : PinStore β) : PinStore β :=
  { S with
    objects := fun d => S.objects d ||
      (r.listed.any fun entry => entry.2.content = d) && !r.fails d }

/-- The scope of the merge: with a failure, the tags whose objects are there. Nothing is merged when
none is. -/
def scope (S : PinStore β) : Option RootScope :=
  if r.listed.any fun entry => r.unpersisted S entry.2.content then
    match (r.listed.filter fun entry => !r.unpersisted S entry.2.content).map Prod.fst with
    | [] => none
    | adopted => some (.tags adopted)
  else
    match r.named with
    | some tag => some (.tags [tag])
    | none => some .package

/-- Merge under the lock. A root whose location is malformed is refused, and the refresh fails. -/
def commit (pointer : String → Bool) (S : PinStore β) (scope : RootScope) :
    RefreshPoint × PinStore β :=
  match c.mergeRoot S.root r.fetched scope with
  | none => (.sweep (c.publishedPins S.root) (c.publishedPins S.root), S)
  | some bytes =>
    if (c.readRoot bytes).any fun root => pointer root.repository then
      (.sweep (c.publishedPins S.root) (c.publishedPins (some bytes)),
        { S with root := some bytes })
    else (.done, S)

/-- The store after the objects that are no longer pinned were removed. -/
def swept (S : PinStore β) (previous current : List Digest) : PinStore β :=
  { S with objects := fun d => S.objects d && !(d ∈ previous && d ∉ current) }

/-- One step of a refresh. `pointer` says which locations are well formed. -/
def advance (pointer : String → Bool) :
    RefreshPoint → PinStore β → Option (RefreshPoint × PinStore β)
  | .stage, S => some ((r.scope S).elim .done .merge, r.staged S)
  | .merge scope, S => some (r.commit pointer S scope)
  | .sweep previous current, S => some (.done, swept S previous current)
  | .done, _ => none

theorem scope_ne_routing {S : PinStore β} {scope : RootScope} (h : r.scope S = some scope) :
    scope ≠ .routing := by
  unfold Refresh.scope at h
  rintro rfl
  split at h
  all_goals (split at h <;> simp at h)

/-- A merge finds a copy it can take apart and every object in its scope, and a removal finds none
of its digests pinned. -/
def Safe (S : PinStore β) : RefreshPoint → Prop
  | .merge scope =>
    c.mergeable S.root = true ∧
      ∀ entry ∈ r.root.tags.toList, scope.includes entry.1 = true →
        S.objects entry.2.content = true
  | .sweep previous current => ∀ d ∈ previous, d ∉ current → d ∉ c.publishedPins S.root
  | _ => True

instance (S : PinStore β) : ∀ point, Decidable (r.Safe S point)
  | .stage => .isTrue trivial
  | .merge _ => inferInstanceAs (Decidable (_ ∧ _))
  | .sweep previous current =>
    inferInstanceAs (Decidable (∀ d ∈ previous, d ∉ current → d ∉ c.publishedPins S.root))
  | .done => .isTrue trivial

variable {r} {pointer : String → Bool} {S S' : PinStore β} {point point' : RefreshPoint}

theorem allPinned_staged (h : AllPinned c S) : AllPinned c (r.staged S) := by
  intro d hd
  simp [staged, h d hd]

theorem allPinned_swept {previous current : List Digest} (h : AllPinned c S)
    (hsafe : r.Safe S (.sweep previous current)) : AllPinned c (swept S previous current) := by
  intro d hd
  have hkept : ¬(d ∈ previous ∧ d ∉ current) := fun hgone => hsafe d hgone.1 hgone.2 hd
  have hobject := h d hd
  simp only [swept, hobject, Bool.true_and]
  simpa [or_iff_not_imp_left] using hkept

theorem allPinned_commit (hc : c.Lawful) (pointer : String → Bool) {scope : RootScope}
    (h : AllPinned c S)
    (hsafe : r.Safe S (.merge scope)) (hscope : scope ≠ .routing) :
    AllPinned c (r.commit pointer S scope).2 := by
  obtain ⟨hcopy, hobjects⟩ := hsafe
  unfold commit
  split
  case h_1 => exact h
  case h_2 bytes hbytes =>
    split_ifs
    · intro d hd
      rcases DocCodec.publishedPins_mergeRoot hc hcopy hscope r.reads hbytes hd with
        hold | ⟨name, entry, hentry, hin, rfl⟩
      · exact h d hold
      · exact hobjects (name, entry) (Std.ExtTreeMap.mem_toList_iff_getElem?_eq_some.2 hentry) hin
    · exact h

/-- The scope a refresh goes on with is one that adopts tags. -/
def Adopting : RefreshPoint → Prop
  | .merge scope => scope ≠ .routing
  | _ => True

theorem allPinned_advance (hc : c.Lawful) (hsafe : r.Safe S point) (hadopting : Adopting point)
    (h : AllPinned c S) (hstep : r.advance pointer point S = some (point', S')) :
    AllPinned c S' ∧ Adopting point' := by
  cases point with
  | stage =>
    obtain ⟨rfl, rfl⟩ := hstep
    refine ⟨allPinned_staged h, ?_⟩
    cases hscope : r.scope S with
    | none => trivial
    | some scope => exact r.scope_ne_routing hscope
  | merge scope =>
    have heq : r.commit pointer S scope = (point', S') := some.inj hstep
    have hpinned := allPinned_commit hc pointer h hsafe hadopting
    rw [heq] at hpinned
    refine ⟨hpinned, ?_⟩
    unfold commit at heq
    split at heq
    case h_1 =>
      cases heq
      trivial
    case h_2 =>
      split_ifs at heq
      all_goals
        cases heq
        trivial
  | sweep previous current =>
    obtain ⟨rfl, rfl⟩ := hstep
    exact ⟨allPinned_swept h hsafe, trivial⟩
  | done => simp [advance] at hstep

end Refresh

/-! ### Any number of refreshes -/

section Runs

variable {β : Type} {c : DocCodec β} {n : ℕ} (pointer : String → Bool) (refresh : Fin n → Refresh c)

/-- Refreshes that share the local index. -/
def refreshes (i : Fin n) : RefreshPoint → PinStore β → Option (RefreshPoint × PinStore β) :=
  (refresh i).advance pointer

def safeTurn (w : World (PinStore β) (Fin n) RefreshPoint) (i : Fin n) : Prop :=
  (refresh i).Safe w.store (w.point i)
deriving Decidable

/-- **Safe turns strand no pin.** From a state whose pinned objects are all present, refreshes that
take safe turns, in any order, leave a state whose pinned objects are all present. -/
theorem allPinned_of_run (hc : c.Lawful) (S : PinStore β) (schedule : List (Fin n))
    (w : World (PinStore β) (Fin n) RefreshPoint) (hstart : AllPinned c S)
    (hrun : World.run (refreshes pointer refresh) ⟨S, fun _ => .stage⟩ schedule = some w)
    (hsafe : World.Guarded (refreshes pointer refresh) (safeTurn refresh) ⟨S, fun _ => .stage⟩
      schedule) : AllPinned c w.store := by
  have hinvariant := hsafe.invariant hrun
    (fun w => AllPinned c w.store ∧ ∀ i, Refresh.Adopting (w.point i)) ⟨hstart, fun _ => trivial⟩ ?_
  · exact hinvariant.1
  · rintro w i w' hturn ⟨hpinned, hadopting⟩ hstep
    obtain ⟨hadvance, hothers⟩ := World.step_eq_some_iff.1 hstep
    obtain ⟨hpinned', hadopting'⟩ :=
      Refresh.allPinned_advance hc hturn (hadopting i) hpinned hadvance
    refine ⟨hpinned', fun j => ?_⟩
    by_cases hj : j = i
    · rw [hj]
      exact hadopting'
    · rw [hothers j hj]
      exact hadopting j

end Runs

/-! ### A lost object -/

/-- The published root: tag `1` moved on, tag `2` is what tag `1` was. -/
def movedRoot : RootDoc :=
  objectRoot [("1", sampleRow 'b' false), ("2", sampleRow 'a' false)]

/-- The digest both tags had. -/
def aliasDigest : Digest := ⟨.sha256, String.ofList (List.replicate 64 'a')⟩

/-- The local index knows tag `1` before it moved. -/
def unmovedStore : PinStore RootDoc where
  root := some (objectRoot [("1", sampleRow 'a' false)])
  objects d := d = aliasDigest

def refreshTag (tag : String) : Refresh plainCodec where
  fetched := movedRoot
  root := (plainCodec.readRoot movedRoot).get (by decide +kernel)
  reads := by simp
  named := some tag
  fails _ := false

def tagRefreshes : Fin 2 → Refresh plainCodec := ![refreshTag "1", refreshTag "2"]

/-- The two refreshes, in this order, from the old state. -/
def tagRun (schedule : List (Fin 2)) : Option (World (PinStore RootDoc) (Fin 2) RefreshPoint) :=
  World.run (refreshes (fun _ => true) tagRefreshes) ⟨unmovedStore, fun _ => .stage⟩ schedule

/-- The refresh of tag `2` finds the object of the old tag `1` and pins it; the refresh of tag `1`
then removes it. -/
theorem moved_tag_strands_alias :
    AllPinned plainCodec unmovedStore ∧
      ∃ w, tagRun [0, 1, 0, 1, 0, 1] = some w ∧ (∀ i, w.point i = .done) ∧
        ¬AllPinned plainCodec w.store := by
  refine ⟨by decide +kernel, (tagRun [0, 1, 0, 1, 0, 1]).get (by decide +kernel), by simp, ?_, ?_⟩
  · decide +kernel
  · decide +kernel

theorem refreshes_in_turn_keep_pins :
    ∃ w, tagRun [0, 0, 0, 1, 1, 1] = some w ∧ AllPinned plainCodec w.store :=
  ⟨(tagRun [0, 0, 0, 1, 1, 1]).get (by decide +kernel), by simp,
    allPinned_of_run (fun _ => true) tagRefreshes plainCodec_lawful unmovedStore
      [0, 0, 0, 1, 1, 1] _ (by decide +kernel) (some_get _).symm (by decide +kernel)⟩

end Ocx
