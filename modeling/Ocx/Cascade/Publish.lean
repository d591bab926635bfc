import Ocx.Cascade.Push
import Ocx.Cascade.Repair
import Ocx.Util.Rolling

/-!
# Publishing and auditing agree

Pushing decides tag by tag what to move, from the tags that exist at that moment. The audit folds
all published versions at once. After any sequence of pushes both come to the same content: every
rolling tag carries, per platform, what the greatest published version below it shipped last.
-/

namespace Ocx

open List Option

open Version

def lastPushed (pubs : List Publication) (v : Version) (p : NativePlatform) :
    Option ImageIndexEntry :=
  lastValue (pubs.map fun pub => ((pub.version, pub.platform.toNative), pub.entry)) (v, p)

/-- The node is a rolling tag above a published version. -/
def IsAlias (pubs : List Publication) (a : AliasTag) : Prop :=
  ∃ pub ∈ pubs, a ∈ aliasChain pub.version
deriving Decidable

/-- The nodes of the graph of a sequence of pushes. -/
def IsNode (pubs : List Publication) (a : AliasTag) : Prop :=
  IsAlias pubs a ∨ ∃ pub ∈ pubs, a = .version pub.version

/-- No published version is a rolling version above another. -/
def NoAncestor (pubs : List Publication) : Prop :=
  ∀ pub ∈ pubs, ¬ IsAlias pubs (.version pub.version)
deriving Decidable

/-- The rolling tag `a` lies above the version `v`. -/
def Above (v : Version) (a : AliasTag) : Prop := a ∈ aliasChain v

/-- The registry as a shelf: the pushes give the content, the registry the rolling tags. -/
def shelf (pubs : List Publication) (reg : Registry) :
    Shelf Version AliasTag NativePlatform ImageIndexEntry where
  content := lastPushed pubs
  slot a p := if IsAlias pubs a then slotAt reg a p else none

/-- The registry after a sequence of pushes. -/
structure Published (pubs : List Publication) (reg : Registry) : Prop where
  /-- Every tag names a clean index. -/
  clean : reg.Clean
  /-- Every tag is that of a published version or of a rolling tag above one. -/
  node : ∀ tag ∈ reg, ∃ a, tag = a.toTag ∧ IsNode pubs a
  /-- Every published version carries what it shipped last. -/
  content : ∀ v p, v.WellFormed → ¬ IsAlias pubs (.version v) →
    slotAt reg (.version v) p = lastPushed pubs v p
  /-- Every rolling tag carries the content of the greatest version below it. -/
  greatest : (shelf pubs reg).Greatest Above

/-! ### Publications -/

variable {p : NativePlatform} {e : ImageIndexEntry} {v : Version} {a : AliasTag}

section Pubs

variable {pubs : List Publication} {pub : Publication} {a : AliasTag}

theorem lastPushed_append (v : Version) (p : NativePlatform) :
    lastPushed (pubs ++ [pub]) v p =
      if (v, p) = (pub.version, pub.platform.toNative) then some pub.entry
      else lastPushed pubs v p := by
  rw [lastPushed, map_append, lastValue_append, map_singleton, lastValue_cons,
    lastValue_nil, none_or]
  split_ifs with h₁ h₂ h₂
  · rfl
  · exact absurd h₁.symm h₂
  · exact absurd h₂.symm h₁
  · rfl

theorem exists_of_lastPushed
    (h : lastPushed pubs v p = some e) : ∃ pub ∈ pubs, pub.version = v := by
  obtain ⟨pub, hpub, heq⟩ := mem_map.1 (mem_of_lastValue_eq_some h)
  simp only [Prod.mk.injEq] at heq
  exact ⟨pub, hpub, heq.1.1⟩

theorem isAlias_append :
    IsAlias (pubs ++ [pub]) a ↔ IsAlias pubs a ∨ a ∈ aliasChain pub.version := by
  simp [IsAlias, mem_append, or_and_right, exists_or]

theorem IsAlias.wellFormed (h : IsAlias pubs a) : a.WellFormed := by
  obtain ⟨pub, -, ha⟩ := h
  exact wellFormed_of_mem_aliasChain pub.wellFormed ha

theorem IsNode.wellFormed (h : IsNode pubs a) : a.WellFormed := by
  rcases h with h | ⟨pub, -, rfl⟩
  · exact h.wellFormed
  · exact pub.wellFormed

theorem NoAncestor.of_append (h : NoAncestor (pubs ++ [pub])) : NoAncestor pubs :=
  fun x hx hal => h x (mem_append_left _ hx) (isAlias_append.2 (.inl hal))

theorem NoAncestor.last (h : NoAncestor (pubs ++ [pub])) :
    ¬ IsAlias (pubs ++ [pub]) (.version pub.version) :=
  h pub (by simp)

end Pubs

open AliasTag

/-! ### Reading the registry of a push -/

section Step

variable {pubs : List Publication} {pub : Publication} {reg : Registry}

theorem mem_of_slotAt_ne_none (h : slotAt reg a p ≠ none) :
    a.toTag ∈ reg := by
  by_contra hnot
  exact h (entryAt_of_not_mem hnot)

theorem Published.wellFormed (h : Published pubs reg) {tag : String} (htag : tag ∈ reg) :
    ∃ a : AliasTag, a.WellFormed ∧ tag = a.toTag ∧ IsNode pubs a := by
  obtain ⟨a, rfl, ha⟩ := h.node tag htag
  exact ⟨a, ha.wellFormed, rfl, ha⟩

theorem Published.slotAt_eq_none (h : Published pubs reg) (ha : a.WellFormed)
    (halias : ¬ IsAlias pubs a) (hleaf : ∀ pub ∈ pubs, a ≠ .version pub.version)
    (p : NativePlatform) : slotAt reg a p = none := by
  refine entryAt_of_not_mem fun htag => ?_
  obtain ⟨b, hb, heq, hnode⟩ := h.wellFormed htag
  obtain rfl := toTag_injOn ha hb heq
  rcases hnode with hnode | ⟨pub, hpub, rfl⟩
  · exact halias hnode
  · exact hleaf pub hpub rfl

theorem mem_listedVersions_of_nodes
    (hnode : ∀ tag ∈ reg, ∃ a : AliasTag, a.WellFormed ∧ tag = a.toTag) {w : Version} :
    w ∈ listedVersions reg ↔ w.WellFormed ∧ w.toTag ∈ reg := by
  rw [listedVersions, Std.ExtTreeSet.mem_ofList, contains_iff_mem, mem_filterMap]
  constructor
  · rintro ⟨tag, htag, hparse⟩
    rw [Std.ExtTreeMap.mem_keys] at htag
    obtain ⟨a, ha, rfl⟩ := hnode tag htag
    rw [parse_toTag ha] at hparse
    rcases a with variant | v
    · simp at hparse
    · obtain rfl : v = w := by simpa using hparse
      exact ⟨ha, htag⟩
  · rintro ⟨hw, htag⟩
    exact ⟨w.toTag, Std.ExtTreeMap.mem_keys.2 htag, Version.parse_toTag hw⟩

theorem Published.mem_listedVersions (h : Published pubs reg) {w : Version} :
    w ∈ listedVersions reg ↔ w.WellFormed ∧ w.toTag ∈ reg :=
  mem_listedVersions_of_nodes fun _ htag =>
    (h.wellFormed htag).imp fun _ ha => ⟨ha.1, ha.2.1⟩

theorem Registry.Clean.clear_iff (h : reg.Clean) {platform : Platform} {w : Version} :
    Clear reg.fetchManifest platform w ↔
      w.toTag ∈ reg ∧ slotAt reg (.version w) platform.toNative = none := by
  have hslot : slotAt reg (.version w) platform.toNative =
      entryAt reg w.toTag platform.toNative := rfl
  rw [Clear, hslot, entryAt, Registry.fetchManifest, Std.ExtTreeMap.mem_iff_isSome_getElem?]
  cases ht : reg[w.toTag]? with
  | none => simp
  | some t =>
    obtain ⟨index, hindex, -⟩ := h _ t ht
    obtain ⟨digest, size, manifest⟩ := t
    obtain rfl : manifest = .imageIndex index := hindex
    simp [hasPlatform, ImageIndex.entryFor]

/-- **What a push moves.** After any sequence of pushes, the next one moves a rolling tag above its
version exactly when no later published version below the tag ships the platform. -/
theorem Published.mem_resolveCascade_iff (h : Published pubs reg)
    (hanc : NoAncestor (pubs ++ [pub])) (ha : a ∈ aliasChain pub.version) :
    a ∈ (resolveCascade reg.fetchManifest pub.platform pub.version (listedVersions reg)).1 ↔
      (shelf pubs reg).Unblocked Above pub.version pub.platform.toNative a := by
  rw [Ocx.mem_resolveCascade_iff ha]
  constructor
  · intro hclear w hlt hw
    change lastPushed pubs w pub.platform.toNative = none
    by_contra hne
    obtain ⟨e, he⟩ := ne_none_iff_exists'.1 hne
    obtain ⟨x, hx, rfl⟩ := exists_of_lastPushed he
    have hleaf : ¬ IsAlias pubs (.version x.version) := hanc.of_append x hx
    have hslot := h.content x.version pub.platform.toNative x.wellFormed hleaf
    have htag : x.version.toTag ∈ reg := mem_of_slotAt_ne_none (hslot.trans_ne hne)
    have hnot : .version x.version ∉ aliasChain pub.version := fun hmem =>
      hanc x (mem_append_left _ hx) (isAlias_append.2 (.inr hmem))
    have hcl := hclear x.version (h.mem_listedVersions.2 ⟨x.wellFormed, htag⟩) hlt hw hnot
    exact hne (hslot.symm.trans (h.clean.clear_iff.1 hcl).2)
  · intro hun w hw hlt hchain hnot
    obtain ⟨hwf, htag⟩ := h.mem_listedVersions.1 hw
    refine h.clean.clear_iff.2 ⟨htag, ?_⟩
    by_cases halias : IsAlias pubs (.version w)
    · -- what a rolling version carries comes from a later version below it
      by_contra hne
      obtain ⟨e, he⟩ := ne_none_iff_exists'.1 hne
      obtain ⟨u, hu, hcontent, -⟩ := h.greatest.sound (.version w) _ e
        (by simpa [shelf, halias] using he)
      have hvu := lt_of_version_mem_aliasChain ha hchain hlt hnot hu
      rw [hun u hvu (aliasChain_trans hu hchain)] at hcontent
      simp at hcontent
    · rw [h.content w _ hwf halias]
      exact hun w hlt hchain

variable (body : ImageIndex → Digest × ℤ)

theorem toTag_mem_pushed_iff {b : AliasTag} (hb : b.WellFormed) :
    b.toTag ∈ pub.version.toTag :: (resolveCascadeTags reg.fetchManifest pub.platform pub.version
      (listedVersions reg)).1 ↔ b = .version pub.version ∨
        b ∈ (resolveCascade reg.fetchManifest pub.platform pub.version (listedVersions reg)).1 := by
  rw [List.mem_cons, resolveCascadeTags, List.mem_map]
  refine or_congr ⟨fun h => ?_, fun h => by rw [h]; rfl⟩
    ⟨fun ⟨a, ha, h⟩ => ?_, fun h => ⟨b, h, rfl⟩⟩
  · exact toTag_injOn hb (b := .version pub.version) pub.wellFormed h
  · have hwf := wellFormed_of_mem_aliasChain pub.wellFormed
      (mem_aliasChain_of_mem_resolveCascade ha)
    rwa [← toTag_injOn hwf hb h]

theorem slotAt_pushWithCascade {b : AliasTag} (hb : b.WellFormed) (q : NativePlatform) :
    slotAt (pushWithCascade body reg pub) b q =
      if (b = .version pub.version ∨ b ∈ (resolveCascade reg.fetchManifest pub.platform pub.version
        (listedVersions reg)).1) ∧ q = pub.platform.toNative then some pub.entry
      else slotAt reg b q := by
  rw [slotAt, pushWithCascade, entryAt_mergeTags]
  simp only [toTag_mem_pushed_iff hb]
  rfl

end Step

/-! ### The invariant of all pushes -/

section Run

variable {pubs : List Publication} {pub : Publication} {reg : Registry}
  (body : ImageIndex → Digest × ℤ)

/-- **A push refines the publication of a shelf.** -/
theorem publishes_shelf (h : Published pubs reg) (hanc : NoAncestor (pubs ++ [pub])) :
    (shelf pubs reg).Publishes Above pub.version pub.platform.toNative pub.entry
      (shelf (pubs ++ [pub]) (pushWithCascade body reg pub)) := by
  have hleaf : ∀ a, IsAlias (pubs ++ [pub]) a → a ≠ .version pub.version := by
    rintro a ha rfl
    exact hanc.last ha
  constructor
  · exact (lastPushed_append _ _).trans (if_pos rfl)
  · intro w q hne
    exact (lastPushed_append _ _).trans (if_neg hne)
  · intro a ha hun
    have halias : IsAlias (pubs ++ [pub]) a := isAlias_append.2 (.inr ha)
    have hmoved := (h.mem_resolveCascade_iff hanc ha).2 hun
    simp [shelf, halias, slotAt_pushWithCascade body halias.wellFormed, hmoved, or_true, and_self]
  · intro a q hnot
    by_cases halias : IsAlias (pubs ++ [pub]) a
    · have hkept : slotAt (pushWithCascade body reg pub) a q = slotAt reg a q := by
        rw [slotAt_pushWithCascade body halias.wellFormed, if_neg]
        rintro ⟨heq | hmoved, rfl⟩
        · exact hleaf a halias heq
        · have ha := mem_aliasChain_of_mem_resolveCascade hmoved
          exact hnot ⟨rfl, ha, (h.mem_resolveCascade_iff hanc ha).1 hmoved⟩
      simp only [shelf, halias, if_true, hkept]
      split_ifs with hold
      · rfl
      · -- a tag that becomes a rolling tag with this push was not in use before
        refine h.slotAt_eq_none halias.wellFormed hold ?_ q
        rintro x hx rfl
        exact hanc x (mem_append_left _ hx) halias
    · have hold : ¬ IsAlias pubs a := fun hold => halias (isAlias_append.2 (.inl hold))
      simp [shelf, halias, hold]

theorem published_empty : Published [] ∅ := by
  refine ⟨fun tag t ht => by simp at ht, fun tag htag => by simp at htag, fun v p _ _ => ?_, ?_⟩
  · exact entryAt_of_not_mem (by simp)
  · refine ⟨fun a p e he => ?_, fun a p v _ hv => absurd rfl hv⟩
    simp [shelf, IsAlias] at he

theorem Published.push (h : Published pubs reg) (hanc : NoAncestor (pubs ++ [pub])) :
    Published (pubs ++ [pub]) (pushWithCascade body reg pub) := by
  refine ⟨h.clean.mergeTags _ _ _, ?_, ?_, h.greatest.publishes (publishes_shelf body h hanc)⟩
  · intro tag htag
    rw [pushWithCascade, mem_mergeTags, List.mem_cons, resolveCascadeTags, List.mem_map] at htag
    rcases htag with htag | rfl | ⟨a, ha, rfl⟩
    · obtain ⟨a, rfl, ha⟩ := h.node tag htag
      refine ⟨a, rfl, ha.imp (fun hal => isAlias_append.2 (.inl hal)) ?_⟩
      rintro ⟨x, hx, rfl⟩
      exact ⟨x, mem_append_left _ hx, rfl⟩
    · exact ⟨.version pub.version, rfl, .inr ⟨pub, by simp, rfl⟩⟩
    · exact ⟨a, rfl, .inl (isAlias_append.2 (.inr (mem_aliasChain_of_mem_resolveCascade ha)))⟩
  · intro v p hv halias
    have hmoved : .version v ∉ (resolveCascade reg.fetchManifest pub.platform pub.version
        (listedVersions reg)).1 := fun hmem =>
      halias (isAlias_append.2 (.inr (mem_aliasChain_of_mem_resolveCascade hmem)))
    rw [slotAt_pushWithCascade body (b := .version v) hv, lastPushed_append,
      h.content v p hv fun hold => halias (isAlias_append.2 (.inl hold))]
    simp [version.injEq, hmoved, or_false, Prod.mk.injEq]

/-- **Every sequence of pushes** leads to a registry whose rolling tags carry the content of the
greatest versions below them. -/
theorem published_publish (hanc : NoAncestor pubs) : Published pubs (publish body pubs) := by
  induction pubs using reverseRecOn with
  | nil => exact published_empty
  | append_singleton pubs pub ih =>
    rw [publish, foldl_append]
    exact (ih hanc.of_append).push body hanc

end Run

/-! ### What the audit reads -/

theorem ImageIndex.Clean.exists_slots {index : ImageIndex} (h : index.Clean) :
    ∃ slots : List (NativePlatform × ImageIndexEntry), slots.map Prod.snd = index.manifests ∧
      (slots.map Prod.fst).Nodup ∧ (∀ s ∈ slots, platformSlot s.2 = some s.1) ∧
      ∀ s ∈ slots, s.2.platform = some s.1 := by
  obtain ⟨hplatform, hnodup⟩ := h
  generalize index.manifests = entries at hplatform hnodup
  induction entries with
  | nil => exact ⟨[], rfl, by simp, by simp, by simp⟩
  | cons e entries ih =>
    rw [forall_mem_cons] at hplatform
    rw [map_cons, nodup_cons] at hnodup
    obtain ⟨slots, rfl, hnd, hslot, hp⟩ := ih hplatform.2 hnodup.2
    obtain ⟨q, hq⟩ := hplatform.1
    have hfresh : q.toNative ∉ slots.map Prod.fst := by
      intro hmem
      obtain ⟨s, hs, hsq⟩ := mem_map.1 hmem
      exact hnodup.1 (mem_map.2 ⟨s.2, mem_map_of_mem hs, by rw [hp s hs, hq, hsq]⟩)
    refine ⟨(q.toNative, e) :: slots, rfl, nodup_cons.2 ⟨hfresh, hnd⟩,
      forall_mem_cons.2 ⟨?_, hslot⟩, forall_mem_cons.2 ⟨hq, hp⟩⟩
    simp [platformSlot, hq]

theorem observedSlots_of_clean {o : TagGraphObservation} {index : ImageIndex}
    (hindex : o.index a = some index) (h : index.Clean) :
    (∀ p : NativePlatform, (observedSlots o a).1[p]? = index.entryFor p) ∧
      (observedSlots o a).2 = [] := by
  obtain ⟨slots, hmap, hnd, hslot, hp⟩ := h.exists_slots
  have hobs : observedSlots o a = index.manifests.foldl holdEntry (∅, []) := by
    rw [observedSlots, hindex]
  rw [hobs, ← hmap, holdEntry_foldl_slots hslot hnd (by simp)]
  refine ⟨fun p => ?_, rfl⟩
  rw [getElem?_foldl_insert, Std.ExtTreeMap.getElem?_empty, or_none]
  cases hfind : index.entryFor p with
  | none =>
    rw [lastValue_eq_none_iff]
    rintro s hs rfl
    rw [ImageIndex.entryFor, find?_eq_none, ← hmap] at hfind
    exact hfind s.2 (mem_map_of_mem hs) (by simp [hp s hs])
  | some e =>
    have he := mem_of_find?_eq_some hfind
    rw [← hmap] at he
    obtain ⟨s, hs, rfl⟩ := mem_map.1 he
    have hsp : s.1 = p := by simpa [hp s hs] using find?_some hfind
    exact hsp ▸ lastValue_of_unique hnd hs

theorem ImageIndex.Clean.entryFor_eq_some_iff {index : ImageIndex} (h : index.Clean) :
    index.entryFor p = some e ↔ e ∈ index.manifests ∧ platformSlot e = some p := by
  constructor
  · intro hfind
    have hmem := mem_of_find?_eq_some hfind
    have hp : e.platform = some p := by simpa using find?_some hfind
    obtain ⟨q, hq⟩ := h.platform e hmem
    refine ⟨hmem, ?_⟩
    obtain rfl := some.inj (hq.symm.trans hp)
    simp [platformSlot, hq]
  · rintro ⟨hmem, hp⟩
    have hplat : e.platform = some p := (filter_eq_some_iff.1 hp).1
    cases hfind : index.entryFor p with
    | none => exact absurd (by simp [hplat]) (find?_eq_none.1 hfind e hmem)
    | some e' =>
      have hplat' : e'.platform = some p := by simpa using find?_some hfind
      rw [inj_on_of_nodup_map h.nodup (mem_of_find?_eq_some hfind) hmem
        (hplat'.trans hplat.symm)]

/-- An observation of the registry after a sequence of pushes: everything but the track roots in
the legacy keep form, which are not recognised. -/
def Observes (pubs : List Publication) (reg : Registry) (o : TagGraphObservation) : Prop :=
  ∀ a t, o.tags[a]? = some t ↔ IsNode pubs a ∧ ¬ a.IsKeepRoot ∧ reg[a.toTag]? = some t

section Audit

variable {pubs : List Publication} {reg : Registry}

theorem lastPushed_ne_none {pub : Publication} (hpub : pub ∈ pubs) :
    lastPushed pubs pub.version pub.platform.toNative ≠ none := fun hnone =>
  lastValue_eq_none_iff.1 hnone _ (mem_map.2 ⟨pub, hpub, rfl⟩) rfl

theorem Published.mem_of_isNode (h : Published pubs reg) (hanc : NoAncestor pubs)
    (ha : IsNode pubs a) : a.toTag ∈ reg := by
  rcases ha with ha | ⟨pub, hpub, rfl⟩
  · obtain ⟨pub, hpub, hchain⟩ := id ha
    have hslot := h.greatest.complete a _ pub.version hchain (lastPushed_ne_none hpub)
    simp only [shelf, ha, if_true] at hslot
    exact mem_of_slotAt_ne_none hslot
  · have hslot := h.content pub.version pub.platform.toNative pub.wellFormed (hanc pub hpub)
    exact mem_of_slotAt_ne_none (hslot.trans_ne (lastPushed_ne_none hpub))

theorem Published.gather (h : Published pubs reg) (hanc : NoAncestor pubs)
    (reads : Completion (classify reg.keys).1) :
    ∃ o, gather reg reads = some o ∧ Observes pubs reg o := by
  have hparse : ∀ tag ∈ reg, ∀ a, parse tag (variantNames reg.keys) = some a →
      tag = a.toTag ∧ IsNode pubs a ∧ ¬ a.IsKeepRoot := by
    intro tag htag a ha
    obtain ⟨b, hb, rfl, hnode⟩ := h.wellFormed htag
    obtain ⟨rfl, hkeep⟩ := eq_of_parse_toTag hb ha
    exact ⟨rfl, hnode, hkeep⟩
  obtain ⟨o, ho, hlookup⟩ := gather_eq_some reads fun tag htag tag' htag' a ha ha' =>
    (hparse tag htag a ha).1.trans (hparse tag' htag' a ha').1.symm
  refine ⟨o, ho, fun a t => (hlookup a t).trans ⟨?_, ?_⟩⟩
  · rintro ⟨tag, ha, ht⟩
    have htag : tag ∈ reg := by simp [Std.ExtTreeMap.mem_iff_isSome_getElem?, ht]
    obtain ⟨rfl, hnode, hkeep⟩ := hparse tag htag a ha
    exact ⟨hnode, hkeep, ht⟩
  · rintro ⟨hnode, hkeep, ht⟩
    refine ⟨a.toTag, ?_, ht⟩
    rw [parse_toTag_iff hnode.wellFormed, if_neg hkeep]
    -- the variant of a track root is that of a published version
    rintro variant rfl
    rcases hnode with ⟨pub, hpub, hchain⟩ | ⟨pub, -, hpub⟩
    · refine mem_variantNames.2 ⟨pub.version.toTag, Std.ExtTreeMap.mem_keys.2 ?_, pub.version,
        Version.parse_toTag pub.wellFormed, (root_mem_aliasChain.1 hchain).2⟩
      exact h.mem_of_isNode hanc (.inr ⟨pub, hpub, rfl⟩)
    · simp at hpub

end Audit

section Observed

variable {pubs : List Publication} {reg : Registry} {o : TagGraphObservation}

/-- **The content of a rolling tag** is what the greatest version below it that ships the platform
shipped last. -/
theorem Published.slotAt_eq_some_iff (h : Published pubs reg) (ha : IsAlias pubs a) :
    slotAt reg a p = some e ↔ ∃ v, a ∈ aliasChain v ∧ lastPushed pubs v p = some e ∧
      ∀ w, v < w → a ∈ aliasChain w → lastPushed pubs w p = none := by
  have hiff := h.greatest.slot_eq_some_iff (a := a) (p := p) (e := e)
  simpa only [shelf, ha, if_true, Shelf.Unblocked, Above] using hiff

theorem not_isKeepRoot_version (v : Version) : ¬ (version v).IsKeepRoot := id

theorem Observes.index (ho : Observes pubs reg o) (h : Published pubs reg)
    (hanc : NoAncestor pubs) (ha : IsNode pubs a) (hkeep : ¬ a.IsKeepRoot) :
    ∃ index, o.index a = some index ∧ index.Clean ∧ aliasState o a = .present ∧
      ∀ p, index.entryFor p = slotAt reg a p := by
  have htag := h.mem_of_isNode hanc ha
  rw [Std.ExtTreeMap.mem_iff_isSome_getElem?, isSome_iff_exists] at htag
  obtain ⟨t, ht⟩ := htag
  obtain ⟨index, hindex, hclean⟩ := h.clean _ t ht
  obtain ⟨digest, size, manifest⟩ := t
  obtain rfl : manifest = .imageIndex index := hindex
  have hobs : o.tags[a]? = some ⟨digest, size, .imageIndex index⟩ := (ho a _).2 ⟨ha, hkeep, ht⟩
  refine ⟨index, ?_, hclean, ?_, fun p => ?_⟩
  · rw [TagGraphObservation.index, hobs]
  · rw [aliasState, hobs]
  · rw [slotAt, entryAt, ht]

theorem Observes.aliasState_of_isKeepRoot (ho : Observes pubs reg o)
    (hkeep : a.IsKeepRoot) : aliasState o a = .absent := by
  have hnone : o.tags[a]? = none := by
    by_contra hne
    obtain ⟨t, ht⟩ := ne_none_iff_exists'.1 hne
    exact ((ho a t).1 ht).2.1 hkeep
  rw [aliasState, hnone]

theorem Observes.mem_versions (ho : Observes pubs reg o) (h : Published pubs reg)
    (hanc : NoAncestor pubs) : v ∈ o.versions ↔ IsNode pubs (.version v) := by
  rw [Ocx.mem_versions, Std.ExtTreeMap.mem_iff_isSome_getElem?, isSome_iff_exists]
  constructor
  · rintro ⟨t, ht⟩
    exact ((ho _ t).1 ht).1
  · intro hv
    have htag := h.mem_of_isNode hanc hv
    rw [Std.ExtTreeMap.mem_iff_isSome_getElem?, isSome_iff_exists] at htag
    obtain ⟨t, ht⟩ := htag
    exact ⟨t, (ho _ t).2 ⟨hv, not_isKeepRoot_version v, ht⟩⟩

theorem Observes.mem_aliasUniverse (ho : Observes pubs reg o) (h : Published pubs reg)
    (hanc : NoAncestor pubs) : a ∈ aliasUniverse o.versions ↔ IsAlias pubs a := by
  rw [Ocx.mem_aliasUniverse]
  constructor
  · rintro ⟨v, hv, ha⟩
    rcases (ho.mem_versions h hanc).1 hv with ⟨pub, hpub, hchain⟩ | ⟨pub, hpub, heq⟩
    · exact ⟨pub, hpub, aliasChain_trans hchain ha⟩
    · exact ⟨pub, hpub, (version.inj heq) ▸ ha⟩
  · rintro ⟨pub, hpub, ha⟩
    exact ⟨pub.version, (ho.mem_versions h hanc).2 (.inr ⟨pub, hpub, rfl⟩), ha⟩

theorem Observes.mem_leaves (ho : Observes pubs reg o) (h : Published pubs reg)
    (hanc : NoAncestor pubs) :
    v ∈ leaves o.versions ↔ ∃ pub ∈ pubs, pub.version = v := by
  rw [Ocx.mem_leaves, ho.mem_versions h hanc, ho.mem_aliasUniverse h hanc]
  constructor
  · rintro ⟨hnode, hnot⟩
    obtain ⟨pub, hpub, heq⟩ := hnode.resolve_left hnot
    exact ⟨pub, hpub, (version.inj heq).symm⟩
  · rintro ⟨pub, hpub, rfl⟩
    exact ⟨.inr ⟨pub, hpub, rfl⟩, hanc pub hpub⟩

theorem Observes.mem_leafEntries (ho : Observes pubs reg o) (h : Published pubs reg)
    (hanc : NoAncestor pubs) :
    (v, p, e) ∈ leafEntries o ↔ lastPushed pubs v p = some e := by
  rw [Ocx.mem_leafEntries, ho.mem_leaves h hanc]
  have hentry : ∀ pub ∈ pubs, ∃ index, o.index (.version pub.version) = some index ∧
      ((e ∈ index.manifests ∧ platformSlot e = some p) ↔
        lastPushed pubs pub.version p = some e) := by
    intro pub hpub
    obtain ⟨index, hindex, hclean, -, hslot⟩ :=
      ho.index h hanc (.inr ⟨pub, hpub, rfl⟩) (not_isKeepRoot_version pub.version)
    refine ⟨index, hindex, ?_⟩
    rw [← hclean.entryFor_eq_some_iff, hslot, h.content _ _ pub.wellFormed (hanc pub hpub)]
  constructor
  · rintro ⟨⟨pub, hpub, rfl⟩, index, hindex, he⟩
    obtain ⟨index', hindex', hiff⟩ := hentry pub hpub
    obtain rfl := some.inj (hindex.symm.trans hindex')
    exact hiff.1 he
  · intro hlast
    obtain ⟨pub, hpub, rfl⟩ := exists_of_lastPushed hlast
    obtain ⟨index, hindex, hiff⟩ := hentry pub hpub
    exact ⟨⟨pub, hpub, rfl⟩, index, hindex, hiff.2 hlast⟩

/-- **The fold expects what the pushes left.** -/
theorem Observes.wanted (ho : Observes pubs reg o) (h : Published pubs reg)
    (hanc : NoAncestor pubs) (ha : IsAlias pubs a) (p : NativePlatform) :
    ((wantedSlots (foldExpected o) a)[p]?).map (·.entry) = slotAt reg a p := by
  have hcontrib : ∀ slot : ExpectedSlot, ((a, p), slot) ∈ contributions o ↔
      lastPushed pubs slot.source p = some slot.entry ∧ a ∈ aliasChain slot.source := by
    intro slot
    rw [mem_contributions, ho.mem_leafEntries h hanc]
  rw [getElem?_wantedSlots_foldExpected]
  cases hlast : lastValue (contributions o) (a, p) with
  | none =>
    symm
    by_contra hne
    obtain ⟨e, he⟩ := ne_none_iff_exists'.1 hne
    obtain ⟨v, hv, hpushed, -⟩ := (h.slotAt_eq_some_iff ha).1 he
    exact lastValue_eq_none_iff.1 hlast _ ((hcontrib ⟨e, v⟩).2 ⟨hpushed, hv⟩) rfl
  | some slot =>
    obtain ⟨hpushed, hchain⟩ := (hcontrib slot).1 (mem_of_lastValue_eq_some hlast)
    refine ((h.slotAt_eq_some_iff ha).2 ⟨slot.source, hchain, hpushed, fun w hlt hw => ?_⟩).symm
    -- a later version would have been folded after the source
    by_contra hne
    obtain ⟨e, he⟩ := ne_none_iff_exists'.1 hne
    have hlater := (hcontrib ⟨e, w⟩).2 ⟨he, hw⟩
    rcases lastValue_max (contributions_sorted o) hlast hlater with rfl | hle
    · exact hlt.false
    · exact absurd hle hlt.not_ge

end Observed

/-! ### Publishing and auditing agree -/

/-- The two sequences push every version's own publications in the same order. -/
def Reorders (pubs pubs' : List Publication) : Prop :=
  ∀ v, (pubs'.filter fun pub => pub.version = v) = pubs.filter fun pub => pub.version = v

/-- After the pushes the audit over the whole graph finds nothing, every rolling tag carries what
the greatest version below it shipped last, and the order of different versions does not matter. -/
structure AuditsClean (body : ImageIndex → Digest × ℤ) (pubs : List Publication) : Prop where
  /-- Whatever order the reads finish in, the audit finds nothing. -/
  noFinding : ∀ reads, ∃ o, gather (publish body pubs) reads = some o ∧
    (∀ row ∈ (audit o).rows, row.status = .ok) ∧
    ∀ (a : AliasTag) (state : AliasState), (audit o).aliases[a]? = some state → state = .present
  /-- Rolling tags carry what the greatest version below them shipped last. -/
  greatest : ∀ (a : AliasTag) (p : NativePlatform) (e : ImageIndexEntry), IsAlias pubs a →
    (slotAt (publish body pubs) a p = some e ↔
      ∃ v, a ∈ aliasChain v ∧ lastPushed pubs v p = some e ∧
      ∀ w, v < w → a ∈ aliasChain w → lastPushed pubs w p = none)
  /-- The order of different versions does not matter. -/
  reorder : ∀ pubs', Reorders pubs pubs' → ∀ a p, IsAlias pubs a →
    slotAt (publish body pubs') a p = slotAt (publish body pubs) a p

section Agree

variable {pubs pubs' : List Publication} {reg : Registry} {o : TagGraphObservation}

theorem Observes.status_ok (ho : Observes pubs reg o) (h : Published pubs reg)
    (hanc : NoAncestor pubs) (ha : IsAlias pubs a) (hkeep : ¬ a.IsKeepRoot)
    {row : SlotRow} (hrow : row ∈ aliasRows o (foldExpected o) a) : row.status = .ok := by
  obtain ⟨index, hindex, hclean, -, hslot⟩ := ho.index h hanc (.inl ha) hkeep
  obtain ⟨hheld, hshadowed⟩ := observedSlots_of_clean hindex hclean
  rcases mem_aliasRows.1 hrow with ⟨p, hp⟩ | ⟨s, hs, -⟩
  · obtain ⟨status, hstatus, rfl⟩ := map_eq_some_iff.1 hp
    rw [hheld, hslot, ← ho.wanted h hanc ha] at hstatus
    cases hwant : (wantedSlots (foldExpected o) a)[p]? with
    | none => simp [hwant, slotStatus] at hstatus
    | some want =>
      have hsame : sameDescriptor want.entry want.entry = true := sameDescriptor_iff.2 rfl
      rw [hwant, map_some, slotStatus, if_pos hsame] at hstatus
      exact (some.inj hstatus).symm
  · simp [hshadowed] at hs

theorem Reorders.mem_iff (h : Reorders pubs pubs') {pub : Publication} :
    pub ∈ pubs' ↔ pub ∈ pubs := by
  have hmem : ∀ l : List Publication,
      pub ∈ l ↔ pub ∈ l.filter fun x => x.version = pub.version := by simp
  rw [hmem pubs', hmem pubs, h pub.version]

theorem Reorders.isAlias_iff (h : Reorders pubs pubs') :
    IsAlias pubs' a ↔ IsAlias pubs a := by
  simp [IsAlias, h.mem_iff]

theorem lastPushed_filter (v : Version) (p : NativePlatform) :
    lastPushed (pubs.filter fun pub => pub.version = v) v p = lastPushed pubs v p := by
  simp only [lastPushed]
  induction pubs with
  | nil => rfl
  | cons pub pubs ih =>
    by_cases hv : pub.version = v
    · rw [filter_cons_of_pos (by simpa using hv), map_cons, map_cons,
        lastValue_cons, lastValue_cons, ih]
    · rw [filter_cons_of_neg (by simpa using hv), map_cons, lastValue_cons, ih]
      simp [hv]

theorem Reorders.lastPushed_eq (h : Reorders pubs pubs') (v : Version) (p : NativePlatform) :
    lastPushed pubs' v p = lastPushed pubs v p := by
  rw [← lastPushed_filter, h v, lastPushed_filter]

variable (body : ImageIndex → Digest × ℤ)

theorem Reorders.slotAt_eq (h : Reorders pubs pubs') (hanc : NoAncestor pubs)
    (ha : IsAlias pubs a) (p : NativePlatform) :
    slotAt (publish body pubs') a p = slotAt (publish body pubs) a p := by
  have hanc' : NoAncestor pubs' := fun pub hpub hal =>
    hanc pub (h.mem_iff.1 hpub) (h.isAlias_iff.1 hal)
  refine ext fun e => ?_
  rw [(published_publish body hanc).slotAt_eq_some_iff ha,
    (published_publish body hanc').slotAt_eq_some_iff (h.isAlias_iff.2 ha)]
  simp [h.lastPushed_eq]

theorem not_auditsClean (hanc : NoAncestor pubs) (ha : IsAlias pubs a)
    (hkeep : a.IsKeepRoot) : ¬ AuditsClean body pubs := by
  intro hclean
  have h := published_publish body hanc
  obtain ⟨o, ho, -, hpresent⟩ := hclean.noFinding (.inOrder _)
  obtain ⟨o', ho', hobs⟩ := h.gather hanc (.inOrder _)
  obtain rfl := some.inj (ho.symm.trans ho')
  have hstate : (audit o).aliases[a]? = some .absent := by
    rw [audit, getElem?_aliases_diff, if_pos ((hobs.mem_aliasUniverse h hanc).2 ha),
      hobs.aliasState_of_isKeepRoot hkeep]
  have := hpresent a .absent hstate
  contradiction

/-- **Publishing and auditing agree** after every sequence of pushes in which no version is a
rolling version above another, exactly when the variants of the stable versions do not have the
legacy keep form. -/
theorem auditsClean_publish_iff (hanc : NoAncestor pubs) :
    AuditsClean body pubs ↔ ∀ pub ∈ pubs, pub.version.hasPrerelease = false →
      ¬ (root pub.version.variant).IsKeepRoot := by
  constructor
  · intro hclean pub hpub hpre hkeep
    exact not_auditsClean body hanc ⟨pub, hpub, root_mem_aliasChain.2 ⟨hpre, rfl⟩⟩ hkeep hclean
  · intro hkeep
    have halias : ∀ a, IsAlias pubs a → ¬ a.IsKeepRoot := by
      rintro (variant | v) ⟨pub, hpub, ha⟩
      · obtain ⟨hpre, rfl⟩ := root_mem_aliasChain.1 ha
        exact hkeep pub hpub hpre
      · exact not_isKeepRoot_version v
    have h := published_publish body hanc
    refine ⟨fun reads => ?_, fun a p e ha => h.slotAt_eq_some_iff ha,
      fun pubs' hre a p ha => hre.slotAt_eq body hanc ha p⟩
    obtain ⟨o, ho, hobs⟩ := h.gather hanc reads
    refine ⟨o, ho, fun row hrow => ?_, fun a state hstate => ?_⟩
    · obtain ⟨a, ha, hrow⟩ := mem_flatMap.1 hrow
      have hal := (hobs.mem_aliasUniverse h hanc).1 (Std.ExtTreeSet.mem_toList.1 ha)
      exact hobs.status_ok h hanc hal (halias a hal) hrow
    · rw [audit, getElem?_aliases_diff] at hstate
      split_ifs at hstate with ha
      have hal := (hobs.mem_aliasUniverse h hanc).1 ha
      obtain ⟨index, -, -, hpresent, -⟩ := hobs.index h hanc (.inl hal) (halias a hal)
      exact (some.inj hstate).symm.trans hpresent

end Agree

/-- A push of a variant of version 1 for `linux/amd64`. -/
def samplePublication (variant : Option String) (minor patch : UInt32)
    (h : (⟨variant, 1, some (minor, some (patch, (none, none)))⟩ : Version).WellFormed) :
    Publication where
  version := ⟨variant, 1, some (minor, some (patch, (none, none)))⟩
  wellFormed := h
  platform := .specific .linux .amd64 none []
  digest := "sha256:1"
  size := 7
  annotations := ∅

/-- Documents that all carry one digest. -/
def sampleBody (_ : ImageIndex) : Digest × ℤ := (⟨.sha256, "2"⟩, 11)

/-- Pushes of 1.2.3, 1.3.0, 1.2.4 and of 1.2.3 again. -/
theorem auditsClean_debug_variant :
    AuditsClean sampleBody [samplePublication (some "debug") 2 3 (by decide),
      samplePublication (some "debug") 3 0 (by decide),
      samplePublication (some "debug") 2 4 (by decide),
      samplePublication (some "debug") 2 3 (by decide)] :=
  (auditsClean_publish_iff sampleBody (by decide)).2 (by decide)

/-- A variant in the legacy keep form. -/
def keepVariant : String :=
  "sha256.0000000000000000000000000000000000000000000000000000000000000000"

/-- The track root of the published variant is read back as a legacy keep tag, so the audit reports
it as absent. -/
theorem keep_variant_not_auditsClean :
    NoAncestor [samplePublication (some keepVariant) 2 3 (by decide)] ∧
      ¬ AuditsClean sampleBody [samplePublication (some keepVariant) 2 3 (by decide)] := by
  have hanc : NoAncestor [samplePublication (some keepVariant) 2 3 (by decide)] := by decide
  exact ⟨hanc, not_auditsClean sampleBody (a := .root (some keepVariant)) hanc (by decide)
    (by decide)⟩

end Ocx
