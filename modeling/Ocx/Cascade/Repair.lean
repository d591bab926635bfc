import Ocx.Cascade.Graph

/-!
# Cascade repair

Repairing a package writes every planned index back. The writes are computed from one observation
but change the very indexes the next audit reads, rolling versions among them. Nevertheless one
repair is enough: it changes neither the leaves nor what they fold into, and the next plan is empty.
-/

namespace Ocx

open List Option

variable {a : AliasTag} {wanted : ExpectedSlots}

/-- The report of an observation over the whole graph. -/
def audit (o : TagGraphObservation) : CascadeReport :=
  diff o (foldExpected o) (aliasUniverse o.versions)

/-- The writes that resolve the report of an observation. -/
def repairs (o : TagGraphObservation) : List PlannedWrite :=
  planRepairs o (foldExpected o) (audit o)

section Apply

variable (body : ImageIndex → Digest × ℤ)

/-- Write planned indexes into an observation. -/
def applyWrites (o : TagGraphObservation) (writes : List PlannedWrite) : TagGraphObservation :=
  { o with
    tags := (writes.map fun w => (w.tag, written body w.index)).foldl
      (fun m w => m.insert w.1 w.2) o.tags }

/-- The observation after its own repair. -/
def repaired (o : TagGraphObservation) : TagGraphObservation := applyWrites body o (repairs o)

end Apply

/-! ### The plan, tag by tag -/

section Plan

variable {o : TagGraphObservation} {expected : ExpectedGraph} {scope : AliasSet}

theorem getElem?_aliases_diff :
    (diff o expected scope).aliases[a]? = if a ∈ scope then some (aliasState o a) else none := by
  have hdistinct : (scope.toList.map fun tag => (tag, aliasState o tag)).Pairwise
      (fun a b => ¬ compare a.1 b.1 = .eq) := by
    rw [pairwise_map]
    exact (pairwise_lt_toList scope).imp fun h hab => h.ne (Std.LawfulEqCmp.compare_eq_iff_eq.1 hab)
  split_ifs with ha
  · exact Std.ExtTreeMap.getElem?_ofList_of_mem Std.ReflCmp.compare_self hdistinct
      (mem_map.2 ⟨a, Std.ExtTreeSet.mem_toList.2 ha, rfl⟩)
  · refine Std.ExtTreeMap.getElem?_ofList_of_contains_eq_false ?_
    simpa using ha

/-- Whether the plan rewrites a tag of the graph. -/
def Rewrites (o : TagGraphObservation) (a : AliasTag) : Prop :=
  a ∈ aliasUniverse o.versions ∧
    needsWrite (aliasState o a) (aliasRows o (foldExpected o) a) = true ∧
    plannedEntries o (foldExpected o) a ≠ []

theorem needsWrite_reasons (ha : a ∈ scope) (state : AliasState) :
    needsWrite state (repairReasons (diff o expected scope) a) =
      needsWrite state (aliasRows o expected a) := by
  rw [Bool.eq_iff_iff]
  simp only [needsWrite, repairReasons, Bool.or_eq_true, List.any_eq_true, List.mem_filter,
    Bool.and_eq_true, bne_iff_ne, ne_eq, beq_iff_eq, diff, List.mem_flatMap,
    Std.ExtTreeSet.mem_toList]
  refine or_congr_right ⟨?_, ?_⟩
  · rintro ⟨row, ⟨⟨b, -, hrow⟩, -, htag⟩, hstatus⟩
    obtain rfl : a = b := htag.symm.trans (tag_of_mem_aliasRows hrow)
    exact ⟨row, hrow, hstatus⟩
  · rintro ⟨row, hrow, hstatus⟩
    refine ⟨row, ⟨⟨a, ha, hrow⟩, ?_, tag_of_mem_aliasRows hrow⟩, hstatus⟩
    rcases hstatus with (h | h) | h <;> simp [h]

theorem of_mem_planRepairs {w : PlannedWrite}
    (h : w ∈ planRepairs o expected (diff o expected scope)) :
    w.tag ∈ scope ∧ needsWrite (aliasState o w.tag) (aliasRows o expected w.tag) = true ∧
      plannedEntries o expected w.tag ≠ [] ∧ w.index = repairIndex o expected w.tag ∧
      w.reasons = repairReasons (diff o expected scope) w.tag ∧
      ∀ e ∈ w.index.manifests, e.digest ∈ w.referencedDigests := by
  obtain ⟨⟨a, state⟩, hmem, hplan⟩ := mem_filterMap.1 h
  rw [Std.ExtTreeMap.mem_toList_iff_getElem?_eq_some, getElem?_aliases_diff] at hmem
  split_ifs at hmem with ha
  obtain rfl := some.inj hmem
  simp only [planRepair, needsWrite_reasons ha] at hplan
  split_ifs at hplan with hcond
  obtain rfl := some.inj hplan
  simp only [Bool.and_eq_true, Bool.not_eq_true', isEmpty_eq_false_iff] at hcond
  refine ⟨ha, hcond.1, hcond.2, rfl, rfl, fun e he => ?_⟩
  rw [Std.ExtTreeSet.mem_toList, Std.ExtTreeSet.mem_ofList, contains_iff_mem]
  exact mem_map_of_mem he

theorem rewrites_of_mem_repairs {w : PlannedWrite} (h : w ∈ repairs o) :
    Rewrites o w.tag ∧ w.index = repairIndex o (foldExpected o) w.tag := by
  obtain ⟨htag, hneeds, hne, hindex, -, -⟩ := of_mem_planRepairs h
  exact ⟨⟨htag, hneeds, hne⟩, hindex⟩

theorem exists_mem_repairs (h : Rewrites o a) : ∃ w ∈ repairs o, w.tag = a := by
  obtain ⟨ha, hneeds, hne⟩ := h
  have hplan : ∃ w, planRepair o (foldExpected o) (audit o) a (aliasState o a) = some w ∧
      w.tag = a := by
    rw [planRepair, audit, needsWrite_reasons ha, hneeds, if_pos (by simpa using hne)]
    exact ⟨_, rfl, rfl⟩
  obtain ⟨w, hw, htag⟩ := hplan
  refine ⟨w, mem_filterMap.2 ⟨(a, aliasState o a), ?_, hw⟩, htag⟩
  rw [Std.ExtTreeMap.mem_toList_iff_getElem?_eq_some, audit, getElem?_aliases_diff, if_pos ha]

variable (body : ImageIndex → Digest × ℤ)

theorem getElem?_repaired_of_rewrites (h : Rewrites o a) :
    (repaired body o).tags[a]? = some (written body (repairIndex o (foldExpected o) a)) := by
  obtain ⟨w, hw, rfl⟩ := exists_mem_repairs h
  rw [repaired, applyWrites, getElem?_foldl_insert]
  cases hlast : lastValue ((repairs o).map fun w => (w.tag, written body w.index)) w.tag with
  | none =>
    exact absurd rfl (lastValue_eq_none_iff.1 hlast _ (List.mem_map.2 ⟨w, hw, rfl⟩))
  | some t =>
    obtain ⟨w', hw', heq⟩ := List.mem_map.1 (mem_of_lastValue_eq_some hlast)
    obtain ⟨htag, rfl⟩ := Prod.mk.inj heq
    rw [(rewrites_of_mem_repairs hw').2, htag]
    rfl

theorem getElem?_repaired_of_not_rewrites (h : ¬ Rewrites o a) :
    (repaired body o).tags[a]? = o.tags[a]? := by
  rw [repaired, applyWrites, getElem?_foldl_insert, lastValue_eq_none_iff.2, Option.none_or]
  rintro ⟨tag, t⟩ hmem rfl
  obtain ⟨w, hw, heq⟩ := List.mem_map.1 hmem
  obtain ⟨rfl, -⟩ := Prod.mk.inj heq
  exact h (rewrites_of_mem_repairs hw).1

/-! ### What the repair leaves unchanged -/

theorem mem_tags_repaired :
    a ∈ (repaired body o).tags ↔ a ∈ o.tags ∨ Rewrites o a := by
  rw [Std.ExtTreeMap.mem_iff_isSome_getElem?, Std.ExtTreeMap.mem_iff_isSome_getElem?]
  by_cases h : Rewrites o a
  · simp [getElem?_repaired_of_rewrites body h, h]
  · simp [getElem?_repaired_of_not_rewrites body h, h]

theorem mem_versions_repaired {v : Version} :
    v ∈ (repaired body o).versions ↔ v ∈ o.versions ∨ Rewrites o (.version v) := by
  rw [mem_versions, mem_versions, mem_tags_repaired]

theorem aliasUniverse_repaired :
    aliasUniverse (repaired body o).versions = aliasUniverse o.versions := by
  refine Std.ExtTreeSet.ext_mem fun a => ?_
  rw [mem_aliasUniverse, mem_aliasUniverse]
  constructor
  · rintro ⟨v, hv, ha⟩
    rcases (mem_versions_repaired body).1 hv with hv | hv
    · exact ⟨v, hv, ha⟩
    · obtain ⟨w, hw, hvw⟩ := mem_aliasUniverse.1 hv.1
      exact ⟨w, hw, aliasChain_trans hvw ha⟩
  · rintro ⟨v, hv, ha⟩
    exact ⟨v, (mem_versions_repaired body).2 (.inl hv), ha⟩

theorem leaves_repaired : leaves (repaired body o).versions = leaves o.versions := by
  refine eq_of_sorted_of_mem_iff (leaves_sorted _) (leaves_sorted _) fun v => ?_
  rw [mem_leaves, mem_leaves, aliasUniverse_repaired, mem_versions_repaired]
  constructor
  · rintro ⟨hv | hv, hnot⟩
    · exact ⟨hv, hnot⟩
    · exact absurd hv.1 hnot
  · rintro ⟨hv, hnot⟩
    exact ⟨.inl hv, hnot⟩

theorem index_repaired_of_not_rewrites (h : ¬ Rewrites o a) :
    (repaired body o).index a = o.index a := by
  rw [TagGraphObservation.index, TagGraphObservation.index,
    getElem?_repaired_of_not_rewrites body h]

theorem leafEntries_repaired : leafEntries (repaired body o) = leafEntries o := by
  rw [leafEntries, leafEntries, leaves_repaired]
  refine flatMap_congr fun leaf hleaf => ?_
  have h : ¬ Rewrites o (.version leaf) := fun h => (mem_leaves.1 hleaf).2 h.1
  rw [index_repaired_of_not_rewrites body h]

theorem foldExpected_repaired : foldExpected (repaired body o) = foldExpected o := by
  rw [foldExpected, foldExpected, contributions, contributions, leafEntries_repaired]

end Plan

/-! ### What the repair writes -/

/-- What holds of a planned index while observed entries are read into it. -/
structure PlanInv (wanted : ExpectedSlots)
    (s : Std.ExtTreeMap NativePlatform ImageIndexEntry × List ImageIndexEntry) : Prop where
  slot : ∀ (p : NativePlatform) (e : ImageIndexEntry), s.1[p]? = some e → platformSlot e = some p
  /-- The other entries claim no slot. -/
  rest : ∀ e ∈ s.2, platformSlot e = none
  covered : ∀ (p : NativePlatform) (want : ExpectedSlot), wanted[p]? = some want →
    s.1[p]? = some want.entry

variable {s : Std.ExtTreeMap NativePlatform ImageIndexEntry × List ImageIndexEntry}

theorem PlanInv.planEntry
    (h : PlanInv wanted s) (e : ImageIndexEntry) : PlanInv wanted (planEntry s e) := by
  rw [Ocx.planEntry]
  cases hp : platformSlot e with
  | none =>
    refine ⟨h.slot, fun e' he' => ?_, h.covered⟩
    rcases mem_append.1 he' with he' | he'
    · exact h.rest e' he'
    · rwa [mem_singleton.1 he']
  | some p =>
    refine ⟨fun q e' he' => ?_, h.rest, fun q want hq => ?_⟩
    · simp only [Std.ExtTreeMap.getElem?_insertIfNew, Std.LawfulEqCmp.compare_eq_iff_eq] at he'
      split_ifs at he' with hq
      · rw [← hq.1, ← some.inj he', hp]
      · exact h.slot q e' he'
    · have hmem := h.covered q want hq
      simp only [Std.ExtTreeMap.getElem?_insertIfNew, Std.LawfulEqCmp.compare_eq_iff_eq]
      rw [if_neg, hmem]
      rintro ⟨rfl, hnot⟩
      exact hnot (Std.ExtTreeMap.mem_iff_isSome_getElem?.2 (by simp [hmem]))

theorem planInv_foldl (entries : List ImageIndexEntry)
    (h : PlanInv wanted s) : PlanInv wanted (entries.foldl planEntry s) :=
  foldlRecOn entries _ h fun _ hs e _ => hs.planEntry e

theorem planInv_planned (o : TagGraphObservation) (a : AliasTag) :
    PlanInv (wantedSlots (foldExpected o) a) (planned o (foldExpected o) a) := by
  have hinit : PlanInv (wantedSlots (foldExpected o) a)
      (expectedEntries (foldExpected o) a, []) := by
    refine ⟨fun p e he => ?_, by simp, fun p want hp => ?_⟩
    · obtain ⟨want, hwant, rfl⟩ := map_eq_some_iff.1 (Std.ExtTreeMap.getElem?_map.symm.trans he)
      exact platformSlot_of_wanted hwant
    · rw [expectedEntries, Std.ExtTreeMap.getElem?_map, hp]
      rfl
  rw [planned]
  split
  · exact hinit
  · exact planInv_foldl _ hinit
  · refine ⟨hinit.slot, fun e he => ?_, hinit.covered⟩
    rw [mem_singleton.1 he]
    rfl

/-! ### What is held afterwards -/

theorem holdEntry_foldl_rest {entries : List ImageIndexEntry}
    (h : ∀ e ∈ entries, platformSlot e = none)
    (s : Std.ExtTreeMap NativePlatform ImageIndexEntry × List (NativePlatform × ImageIndexEntry)) :
    entries.foldl holdEntry s = s := by
  refine foldlRecOn (motive := (· = s)) entries _ rfl fun s' hs e he => ?_
  rw [holdEntry, h e he, hs]

theorem holdEntry_foldl_slots {slots : List (NativePlatform × ImageIndexEntry)}
    (h : ∀ s ∈ slots, platformSlot s.2 = some s.1) (hnd : (slots.map Prod.fst).Nodup)
    {s : Std.ExtTreeMap NativePlatform ImageIndexEntry × List (NativePlatform × ImageIndexEntry)}
    (hfree : ∀ t ∈ slots, s.1[t.1]? = none) :
    (slots.map Prod.snd).foldl holdEntry s =
      (slots.foldl (fun m t => m.insert t.1 t.2) s.1, s.2) := by
  induction slots generalizing s with
  | nil => rfl
  | cons t slots ih =>
    rw [forall_mem_cons] at h hfree
    rw [map_cons, nodup_cons] at hnd
    rw [map_cons, foldl_cons, foldl_cons]
    have hstep : holdEntry s t.2 = (s.1.insert t.1 t.2, s.2) := by simp [holdEntry, h.1, hfree.1]
    rw [hstep]
    refine ih h.2 hnd.2 fun t' ht' => ?_
    have hne : t.1 ≠ t'.1 := fun heq => hnd.1 (heq ▸ mem_map_of_mem ht')
    simpa [hne] using hfree.2 t' ht'

theorem observedSlots_of_plannedEntries {o o' : TagGraphObservation}
    {index : ImageIndex} (hindex : o'.index a = some index)
    (hentries : index.manifests = plannedEntries o (foldExpected o) a) :
    (∀ p : NativePlatform, (observedSlots o' a).1[p]? = (planned o (foldExpected o) a).1[p]?) ∧
      (observedSlots o' a).2 = [] := by
  have hinv := planInv_planned o a
  have hslots : ∀ s ∈ (planned o (foldExpected o) a).1.toList, platformSlot s.2 = some s.1 :=
    fun s hs => hinv.slot s.1 s.2 (Std.ExtTreeMap.mem_toList_iff_getElem?_eq_some.1 hs)
  have hobs : observedSlots o' a = index.manifests.foldl holdEntry (∅, []) := by
    rw [observedSlots, hindex]
  rw [hobs, hentries, plannedEntries, foldl_append,
    holdEntry_foldl_slots hslots (nodup_keys_toList _) (by simp), holdEntry_foldl_rest hinv.rest]
  refine ⟨fun p => ?_, rfl⟩
  rw [getElem?_foldl_insert, lastValue_toList]
  simp

/-! ### What is left to report -/

section Report

variable (body : ImageIndex → Digest × ℤ) {o : TagGraphObservation}

theorem aliasState_repaired_of_rewrites (h : Rewrites o a) :
    aliasState (repaired body o) a = .present := by
  rw [aliasState, getElem?_repaired_of_rewrites body h]
  rfl

theorem status_repaired_of_rewrites (h : Rewrites o a) {row : SlotRow}
    (hrow : row ∈ aliasRows (repaired body o) (foldExpected o) a) :
    row.status = .ok ∨ row.status = .orphan := by
  have hindex : (repaired body o).index a = some (repairIndex o (foldExpected o) a) := by
    rw [TagGraphObservation.index, getElem?_repaired_of_rewrites body h]
    rfl
  obtain ⟨hheld, hshadowed⟩ := observedSlots_of_plannedEntries hindex rfl
  rcases mem_aliasRows.1 hrow with ⟨p, hp⟩ | ⟨s, hs, -⟩
  · obtain ⟨status, hstatus, rfl⟩ := Option.map_eq_some_iff.1 hp
    rw [hheld] at hstatus
    cases hwant : (wantedSlots (foldExpected o) a)[p]? with
    | some want =>
      have hsame : sameDescriptor want.entry want.entry = true := sameDescriptor_iff.2 rfl
      rw [hwant, (planInv_planned o a).covered p want hwant, slotStatus, if_pos hsame] at hstatus
      exact .inl (Option.some.inj hstatus).symm
    | none =>
      rw [hwant] at hstatus
      cases hentry : (planned o (foldExpected o) a).1[p]? with
      | none => simp [hentry, slotStatus] at hstatus
      | some e =>
        rw [hentry, slotStatus] at hstatus
        exact .inr (Option.some.inj hstatus).symm
  · simp [hshadowed] at hs

theorem aliasState_repaired_of_not_rewrites (h : ¬ Rewrites o a) :
    aliasState (repaired body o) a = aliasState o a := by
  rw [aliasState, aliasState, getElem?_repaired_of_not_rewrites body h]

theorem aliasRows_repaired_of_not_rewrites (h : ¬ Rewrites o a) :
    aliasRows (repaired body o) (foldExpected o) a = aliasRows o (foldExpected o) a := by
  have hslots : observedSlots (repaired body o) a = observedSlots o a := by
    rw [observedSlots, observedSlots, index_repaired_of_not_rewrites body h]
  have hprov : leafProvenance (repaired body o) = leafProvenance o := by
    rw [leafProvenance, leafProvenance, leafEntries_repaired]
  have hrow : slotRow (repaired body o) (foldExpected o) a = slotRow o (foldExpected o) a := by
    funext p
    rw [slotRow, slotRow, hslots, hprov]
  have hshadowed : shadowedRow (repaired body o) (foldExpected o) a =
      shadowedRow o (foldExpected o) a := by
    funext s
    rw [shadowedRow, shadowedRow, hprov]
  rw [aliasRows, aliasRows, slotPlatforms, slotPlatforms, hslots, hrow, hshadowed]

theorem plannedEntries_repaired_of_not_rewrites (h : ¬ Rewrites o a) :
    plannedEntries (repaired body o) (foldExpected o) a = plannedEntries o (foldExpected o) a := by
  rw [plannedEntries, plannedEntries, planned, planned, getElem?_repaired_of_not_rewrites body h]

theorem refused_iff :
    .wouldEmptyIndex a ∈ (audit o).unrepairable ↔ a ∈ aliasUniverse o.versions ∧
      needsWrite (aliasState o a) (aliasRows o (foldExpected o) a) = true ∧
      plannedEntries o (foldExpected o) a = [] := by
  simp [audit, diff]

theorem needsWrite_eq_false (ha : a ∈ aliasUniverse o.versions)
    (h : ¬ Rewrites o a) (hrefused : .wouldEmptyIndex a ∉ (audit o).unrepairable) :
    needsWrite (aliasState o a) (aliasRows o (foldExpected o) a) = false := by
  rw [Bool.eq_false_iff]
  intro hneeds
  by_cases hempty : plannedEntries o (foldExpected o) a = []
  · exact hrefused (refused_iff.2 ⟨ha, hneeds, hempty⟩)
  · exact h ⟨ha, hneeds, hempty⟩

theorem needsWrite_eq_false_iff {state : AliasState} {rows : List SlotRow} :
    needsWrite state rows = false ↔
      state = .present ∧ ∀ row ∈ rows, row.status = .ok ∨ row.status = .orphan := by
  have hstatus (row : SlotRow) : (row.status == .missing || row.status == .stale ||
      row.status == .duplicate) = false ↔ row.status = .ok ∨ row.status = .orphan := by
    cases row.status <;> decide
  rw [needsWrite, Bool.or_eq_false_iff, List.any_eq_false]
  simp only [bne_eq_false_iff_eq, Bool.not_eq_true, hstatus]

theorem not_rewrites_repaired (a : AliasTag) : ¬ Rewrites (repaired body o) a := by
  rintro ⟨ha, hneeds, hne⟩
  rw [aliasUniverse_repaired] at ha
  rw [foldExpected_repaired] at hneeds hne
  by_cases h : Rewrites o a
  · have hclean : needsWrite (aliasState (repaired body o) a)
        (aliasRows (repaired body o) (foldExpected o) a) = false :=
      needsWrite_eq_false_iff.2 ⟨aliasState_repaired_of_rewrites body h,
        fun row hrow => status_repaired_of_rewrites body h hrow⟩
    exact absurd hneeds (by rw [hclean]; decide)
  · rw [aliasState_repaired_of_not_rewrites body h, aliasRows_repaired_of_not_rewrites body h]
      at hneeds
    rw [plannedEntries_repaired_of_not_rewrites body h] at hne
    exact h ⟨ha, hneeds, hne⟩

/-- **Repair reaches a fixed point in one step.** Writing every planned index back leaves the
leaves, the rolling tags and the expectation unchanged. Afterwards only orphans are left to report
and every rolling tag is an index, except for the tags the plan refused because the write would
have emptied them; and the next plan has no write. -/
theorem repair_fixed_point (o : TagGraphObservation) :
    leaves (repaired body o).versions = leaves o.versions ∧
    aliasUniverse (repaired body o).versions = aliasUniverse o.versions ∧
    foldExpected (repaired body o) = foldExpected o ∧
    (∀ row ∈ (audit (repaired body o)).rows, (row.status = .ok ∨ row.status = .orphan) ∨
      .wouldEmptyIndex row.tag ∈ (audit o).unrepairable) ∧
    (∀ a state, (audit (repaired body o)).aliases[a]? = some state →
      state = .present ∨ .wouldEmptyIndex a ∈ (audit o).unrepairable) ∧
    repairs (repaired body o) = [] := by
  refine ⟨leaves_repaired body, aliasUniverse_repaired body, foldExpected_repaired body, ?_, ?_, ?_⟩
  · intro row hrow
    rw [audit, diff, foldExpected_repaired, aliasUniverse_repaired] at hrow
    obtain ⟨a, ha, hrow⟩ := mem_flatMap.1 hrow
    rw [tag_of_mem_aliasRows hrow]
    by_cases h : Rewrites o a
    · exact .inl (status_repaired_of_rewrites body h hrow)
    · rw [aliasRows_repaired_of_not_rewrites body h] at hrow
      by_cases hrefused : .wouldEmptyIndex a ∈ (audit o).unrepairable
      · exact .inr hrefused
      · exact .inl ((needsWrite_eq_false_iff.1 (needsWrite_eq_false (Std.ExtTreeSet.mem_toList.1 ha)
          h hrefused)).2 row hrow)
  · intro a state hstate
    rw [audit, getElem?_aliases_diff, aliasUniverse_repaired] at hstate
    split_ifs at hstate with ha
    rw [← some.inj hstate]
    by_cases h : Rewrites o a
    · exact .inl (aliasState_repaired_of_rewrites body h)
    · rw [aliasState_repaired_of_not_rewrites body h]
      by_cases hrefused : .wouldEmptyIndex a ∈ (audit o).unrepairable
      · exact .inr hrefused
      · exact .inl (needsWrite_eq_false_iff.1 (needsWrite_eq_false ha h hrefused)).1
  · rw [eq_nil_iff_forall_not_mem]
    intro w hw
    exact not_rewrites_repaired body w.tag (rewrites_of_mem_repairs hw).1

end Report

end Ocx
