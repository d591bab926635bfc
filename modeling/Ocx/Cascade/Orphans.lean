import Ocx.Cascade.Repair

/-!
# Orphan slots under repair

A rolling tag may carry a platform that nothing folds into it. Repair keeps such an orphan when it
rewrites the tag for another reason. The audit and the plan read the index of the tag separately:
where it lists a platform several times, the audit reports the last entry as the one that is held,
and the plan keeps the first one. So an orphan stays what it was exactly when the two agree.
-/

namespace Ocx

open List

def listedFor (o : TagGraphObservation) (tag : AliasTag) (p : NativePlatform) :
    List ImageIndexEntry :=
  match o.index tag with
  | none => []
  | some index => index.manifests.filter fun e => platformSlot e = some p

section Slots

variable {o : TagGraphObservation} {a : AliasTag}

/-! ### Two readings of one index -/

theorem getElem?_holdEntry_foldl (entries : List ImageIndexEntry)
    (s : Std.ExtTreeMap NativePlatform ImageIndexEntry × List (NativePlatform × ImageIndexEntry))
    (p : NativePlatform) :
    (entries.foldl holdEntry s).1[p]? =
      (entries.filter fun e => platformSlot e = some p).getLast?.or s.1[p]? := by
  induction entries using reverseRecOn with
  | nil => rfl
  | append_singleton entries e ih =>
    rw [foldl_concat, filter_append]
    cases hslot : platformSlot e with
    | none => simpa [holdEntry, hslot] using ih
    | some q =>
      -- both branches of the step insert the entry
      have hstep : (holdEntry (entries.foldl holdEntry s) e).1 =
          (entries.foldl holdEntry s).1.insert q e := by
        rw [holdEntry, hslot]
        dsimp only
        split <;> rfl
      rw [hstep, getElem?_insert_eq]
      by_cases hq : q = p
      · simp [hq, hslot]
      · simpa [hq, hslot] using ih

/-- The audit holds the last entry of a platform. -/
theorem getElem?_observedSlots (p : NativePlatform) :
    (observedSlots o a).1[p]? = (listedFor o a p).getLast? := by
  rw [observedSlots, listedFor]
  cases o.index a with
  | none => simp
  | some index => simp [getElem?_holdEntry_foldl]

theorem getElem?_planEntry_foldl (entries : List ImageIndexEntry)
    (s : Std.ExtTreeMap NativePlatform ImageIndexEntry × List ImageIndexEntry)
    (p : NativePlatform) :
    (entries.foldl planEntry s).1[p]? =
      s.1[p]?.or (entries.filter fun e => platformSlot e = some p).head? := by
  induction entries generalizing s with
  | nil => simp
  | cons e entries ih =>
    rw [foldl_cons, ih, planEntry]
    cases hslot : platformSlot e with
    | none => simp [hslot]
    | some q =>
      simp only [Std.ExtTreeMap.getElem?_insertIfNew, Std.LawfulEqCmp.compare_eq_iff_eq]
      by_cases hq : q = p
      · subst hq
        cases hheld : s.1[q]? with
        | none => simp [hslot, Std.ExtTreeMap.mem_iff_isSome_getElem?, hheld]
        | some held => simp [Std.ExtTreeMap.mem_iff_isSome_getElem?, hheld]
      · simp [hq, hslot]

/-- The plan takes the expected entry of a platform, or else the first one that is listed. -/
theorem getElem?_planned {expected : ExpectedGraph} (p : NativePlatform) :
    (planned o expected a).1[p]? =
      ((wantedSlots expected a)[p]?.map (·.entry)).or (listedFor o a p).head? := by
  have hexpected : (expectedEntries expected a)[p]? =
      (wantedSlots expected a)[p]?.map (·.entry) := by
    rw [expectedEntries, Std.ExtTreeMap.getElem?_map]
  rw [planned, listedFor, TagGraphObservation.index]
  rcases o.tags[a]? with _ | ⟨digest, size, _ | index⟩
  · simp [hexpected]
  · simp [hexpected]
  · simp [getElem?_planEntry_foldl, hexpected]

/-! ### What is written -/

theorem filter_values_toList {m : Std.ExtTreeMap NativePlatform ImageIndexEntry}
    (hm : ∀ (p : NativePlatform) (e : ImageIndexEntry), m[p]? = some e → platformSlot e = some p)
    (p : NativePlatform) :
    ((m.toList.map Prod.snd).filter fun e => platformSlot e = some p) = m[p]?.toList := by
  have hslot : ∀ s ∈ m.toList, platformSlot s.2 = some s.1 := fun s hs =>
    hm s.1 s.2 (Std.ExtTreeMap.mem_toList_iff_getElem?_eq_some.1 hs)
  have hmem : ∀ e, e ∈ ((m.toList.map Prod.snd).filter fun e => platformSlot e = some p) ↔
      m[p]? = some e := by
    intro e
    rw [mem_filter, mem_map, decide_eq_true_eq]
    constructor
    · rintro ⟨⟨s, hs, rfl⟩, hp⟩
      rw [hslot s hs] at hp
      rw [← Option.some.inj hp]
      exact Std.ExtTreeMap.mem_toList_iff_getElem?_eq_some.1 hs
    · intro he
      exact ⟨⟨(p, e), Std.ExtTreeMap.mem_toList_iff_getElem?_eq_some.2 he, rfl⟩, hm p e he⟩
  -- distinct keys carry entries of distinct platforms, so no entry occurs twice
  have hnodup : ((m.toList.map Prod.snd).filter fun e => platformSlot e = some p).Nodup := by
    refine List.Nodup.filter _ (List.Nodup.of_map platformSlot ?_)
    have hkeys : (m.toList.map Prod.snd).map platformSlot = (m.toList.map Prod.fst).map some := by
      simp only [map_map]
      exact map_congr_left fun s hs => hslot s hs
    rw [hkeys]
    exact (nodup_keys_toList m).map (Option.some_injective _)
  cases hp : m[p]? with
  | none =>
    refine eq_nil_iff_forall_not_mem.2 fun e he => ?_
    rw [hmem, hp] at he
    cases he
  | some e =>
    refine perm_singleton.1 ((perm_ext_iff_of_nodup hnodup (nodup_singleton e)).2 ?_)
    intro e'
    rw [hmem, hp, Option.some.injEq, mem_singleton, eq_comm]

/-- A planned index lists a platform at most once: with the expected entry, or else the first one
that was there. -/
theorem filter_repairIndex (p : NativePlatform) :
    ((repairIndex o (foldExpected o) a).manifests.filter fun e => platformSlot e = some p) =
      (((wantedSlots (foldExpected o) a)[p]?.map (·.entry)).or (listedFor o a p).head?).toList := by
  have hinv := planInv_planned o a
  have hrest : ((planned o (foldExpected o) a).2.filter fun e => platformSlot e = some p) = [] := by
    refine filter_eq_nil_iff.2 fun e he => ?_
    simp [hinv.rest e he]
  rw [repairIndex, plannedEntries, filter_append, hrest, append_nil,
    filter_values_toList hinv.slot, getElem?_planned]

end Slots

theorem exists_orphan_row {o : TagGraphObservation} {expected : ExpectedGraph} {scope : AliasSet}
    {a : AliasTag} (ha : a ∈ scope) {p : NativePlatform} {held : ImageIndexEntry}
    (hp : (wantedSlots expected a)[p]? = none) (hheld : (observedSlots o a).1[p]? = some held) :
    ∃ row ∈ (diff o expected scope).rows, row.tag = a ∧ row.platform = p ∧
      row.status = .orphan ∧ row.observed = some held.digest := by
  have hrow : ∃ row, slotRow o expected a p = some row ∧ row.tag = a ∧ row.platform = p ∧
      row.status = .orphan ∧ row.observed = some held.digest := by
    simp [slotRow, hp, hheld, slotStatus]
  obtain ⟨row, hslot, hspec⟩ := hrow
  exact ⟨row, mem_flatMap.2 ⟨a, Std.ExtTreeSet.mem_toList.2 ha,
    mem_aliasRows.2 (.inl ⟨p, hslot⟩)⟩, hspec⟩

/-- **Orphans under repair.** Take a planned write and a platform that the fold does not expect at
its tag and that the tag holds. The audit reports what is held there as an orphan. The planned index
has that entry, and no other one, for the platform exactly when the first and the last entry that
the tag lists for it are the same. -/
theorem planned_orphan_iff {o : TagGraphObservation} {scope : AliasSet} {w : PlannedWrite}
    (hw : w ∈ planRepairs o (foldExpected o) (diff o (foldExpected o) scope)) {p : NativePlatform}
    (hp : (wantedSlots (foldExpected o) w.tag)[p]? = none) {held : ImageIndexEntry}
    (hheld : (observedSlots o w.tag).1[p]? = some held) :
    (∃ row ∈ (diff o (foldExpected o) scope).rows, row.tag = w.tag ∧ row.platform = p ∧
      row.status = .orphan ∧ row.observed = some held.digest) ∧
    ((w.index.manifests.filter fun e => platformSlot e = some p) = [held] ↔
      (listedFor o w.tag p).head? = (listedFor o w.tag p).getLast?) := by
  obtain ⟨hscope, -, -, hindex, -, -⟩ := of_mem_planRepairs hw
  refine ⟨exists_orphan_row hscope hp hheld, ?_⟩
  rw [getElem?_observedSlots] at hheld
  rw [hindex, filter_repairIndex, hp, Option.map_none, Option.none_or, hheld]
  cases (listedFor o w.tag p).head? <;> simp

/-- A platform of a 64-bit machine. -/
def amd64 (os : NativeOs) : NativePlatform := ⟨.amd64, os, none, none, none, none⟩

/-- The entry of a manifest for a 64-bit machine. -/
def amd64Entry (os : NativeOs) (digest : String) : ImageIndexEntry :=
  ⟨mediaTypeOciImageManifest, digest, 1, some (amd64 os), none, none⟩

def observedIndex (entries : List ImageIndexEntry) : ObservedTag :=
  ⟨⟨.sha256, "00"⟩, 1, .imageIndex ⟨indexSchemaVersion, none, none, entries, none⟩⟩

/-- A version `1.2.3` for Linux whose rolling tag `1.2` lists the given manifests for Windows. -/
def windowsOrphans (digests : List String) : TagGraphObservation where
  tags := .ofList
    [(AliasTag.version (.newPatch 1 2 3), observedIndex [amd64Entry .linux "leaf"]),
      (AliasTag.version (.newMinor 1 2), observedIndex (digests.map (amd64Entry .windows)))]
  ignoredTags := []
  indexRoot := none

/-- An orphan that is listed once is kept. -/
theorem planned_orphan_single :
    ∃ w ∈ repairs (windowsOrphans ["old"]), w.tag = .version (.newMinor 1 2) ∧
      (w.index.manifests.filter fun e => platformSlot e = some (amd64 .windows)) =
        [amd64Entry .windows "old"] := by
  obtain ⟨w, hw, htag⟩ := exists_mem_repairs (o := windowsOrphans ["old"])
    (a := .version (.newMinor 1 2)) ⟨by decide +kernel, by decide +kernel, by decide +kernel⟩
  refine ⟨w, hw, htag, (planned_orphan_iff hw ?_ ?_).2.2 ?_⟩ <;> rw [htag] <;> decide +kernel

/-- Listed twice, the orphan is held as `new`, and the planned index has `old` in its place. -/
theorem planned_orphan_duplicated :
    (repairs (windowsOrphans ["old", "new"])).map (fun w =>
        (w.tag, w.index.manifests.filter fun e => platformSlot e = some (amd64 .windows))) =
      [(.root none, []), (.version (.newMinor 1 2), [amd64Entry .windows "old"]),
        (.version (.newMajor 1), [])] ∧
    ((audit (windowsOrphans ["old", "new"])).rows.filter (·.status = .orphan)).map
        (fun row => (row.tag, row.platform, row.observed)) =
      [(.version (.newMinor 1 2), amd64 .windows, some "new")] := by
  decide +kernel

end Ocx
