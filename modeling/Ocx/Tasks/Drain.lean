import Ocx.Oci.PackageRef
import Ocx.Util.Schedule

/-!
# Draining a batch of package tasks

A batch runs one task for each slot of a list of packages. The tasks end in any order, with a value,
with an error or by a panic. The results are put back into the slots through a map from packages to
slots, so a package that is listed twice has one slot only: the last one.
-/

namespace Ocx

open List Option

/-! ### The drain -/

inductive TaskEnd (T Kind : Type)
  | value (v : T)
  | failed (kind : Kind)
  | panicked

structure BatchSlot (T Kind : Type) where
  package : PackageRef
  ending : TaskEnd T Kind

/-- What went wrong with a package. -/
inductive BatchErrorKind (Kind : Type)
  | taskPanicked
  | other (kind : Kind)

structure BatchError (Kind : Type) where
  identifier : PackageRef
  /-- What went wrong. -/
  kind : BatchErrorKind Kind

structure Drain (T Kind : Type) where
  /-- The packages that no task reported yet. -/
  pending : List PackageRef
  /-- The values, by slot. -/
  results : List (Option T)
  /-- The errors, with their slots. -/
  errors : List (ℕ × BatchError Kind)

/-- The slot of a package: the last one that lists it. -/
def indexMap (packages : List PackageRef) (id : PackageRef) : Option ℕ :=
  lastValue packages.zipIdx id

/-- The slot of an error whose package is not listed. -/
def usizeMax : ℕ := 2 ^ 64 - 1

/-- The slot an error is sorted by. -/
def errorIndex (packages : List PackageRef) (id : PackageRef) : ℕ :=
  (indexMap packages id).getD usizeMax

namespace Drain

variable {T Kind : Type}

/-- The drain before any task ended. -/
def start (packages : List PackageRef) : Drain T Kind :=
  ⟨packages.dedup, packages.map fun _ => none, []⟩

/-- A task ends. -/
def join (packages : List PackageRef) (d : Drain T Kind) (slot : BatchSlot T Kind) :
    Drain T Kind :=
  match slot.ending with
  | .value v =>
    { d with
      pending := d.pending.filter (· ≠ slot.package)
      results := (indexMap packages slot.package).elim d.results fun idx =>
        d.results.set idx (some v) }
  | .failed kind =>
    { d with
      pending := d.pending.filter (· ≠ slot.package)
      errors := d.errors ++ [(errorIndex packages slot.package, ⟨slot.package, .other kind⟩)] }
  -- the join error does not say which task it was
  | .panicked => d

end Drain

/-- Drain the tasks of a batch as they end. The packages that no task reported are visited in any
order. -/
def drainPackageTasks {T Kind : Type} (iterate : ∀ pending : List PackageRef, Completion pending)
    (packages : List PackageRef) (joined : List (BatchSlot T Kind)) :
    Except (List (BatchError Kind)) (List T) :=
  let d := joined.foldl (Drain.join packages) (.start packages)
  let errors := d.errors ++ (iterate d.pending).order.map fun id =>
    (errorIndex packages id, ⟨id, .taskPanicked⟩)
  if errors.isEmpty then .ok (d.results.filterMap id)
  else .error ((errors.mergeSort fun a b => a.1 ≤ b.1).map Prod.snd)

namespace BatchSlot

variable {T Kind : Type}

def value? (slot : BatchSlot T Kind) : Option T :=
  match slot.ending with
  | .value v => some v
  | _ => none

/-- The error of a slot, if its task reported one. -/
def error? (slot : BatchSlot T Kind) : Option (BatchError Kind) :=
  match slot.ending with
  | .failed kind => some ⟨slot.package, .other kind⟩
  | _ => none

def isPanicked (slot : BatchSlot T Kind) : Bool :=
  match slot.ending with
  | .panicked => true
  | _ => false

/-- The task has no value. -/
def isFailed (slot : BatchSlot T Kind) : Bool := slot.value?.isNone

end BatchSlot

/-! ### What a batch is for -/

/-- The result of a batch fits its slots: one value for each slot, produced for its package, or the
failed packages in the order of the slots. -/
structure Aligned {T Kind : Type} (slots : List (BatchSlot T Kind))
    (result : Except (List (BatchError Kind)) (List T)) : Prop where
  succeeded : (∀ slot ∈ slots, slot.isFailed = false) → ∃ values, result = .ok values ∧
    List.Forall₂ (fun slot v => ∃ producer ∈ slots, producer.package = slot.package ∧
      producer.ending = .value v) slots values
  failed : (∃ slot ∈ slots, slot.isFailed = true) → ∃ errors, result = .error errors ∧
    errors.map BatchError.identifier =
      (slots.filter BatchSlot.isFailed).map BatchSlot.package

/-- When the result of a batch fits its slots. -/
structure AlignedWhen {T Kind : Type} (slots : List (BatchSlot T Kind)) : Prop where
  /-- If every task has a value, no package is listed twice. -/
  distinct : (∀ slot ∈ slots, slot.isFailed = false) → (slots.map BatchSlot.package).Nodup
  /-- A package whose task panics is listed once. -/
  panics : ∀ slot ∈ slots, slot.isPanicked = true →
    (slots.map BatchSlot.package).count slot.package = 1
  /-- The failed packages come in the order of their last slots. -/
  sorted : (slots.filter BatchSlot.isFailed).Pairwise fun a b =>
    errorIndex (slots.map BatchSlot.package) a.package ≤
      errorIndex (slots.map BatchSlot.package) b.package

/-! ### The slot of a package -/

section IndexMap

variable {packages : List PackageRef} {id : PackageRef} {i : ℕ}

theorem getElem?_of_indexMap (h : indexMap packages id = some i) : packages[i]? = some id :=
  mem_zipIdx_iff_getElem?.1 (mem_of_lastValue_eq_some h)

theorem exists_indexMap (h : id ∈ packages) : ∃ i, indexMap packages id = some i := by
  obtain ⟨i, hi⟩ := mem_iff_getElem?.1 h
  cases hmap : indexMap packages id with
  | none =>
    have hmem : (id, i) ∈ packages.zipIdx := mem_zipIdx_iff_getElem?.2 hi
    exact absurd rfl (lastValue_eq_none_iff.1 hmap _ hmem)
  | some j => exact ⟨j, rfl⟩

theorem indexMap_of_nodup (hnodup : packages.Nodup) (h : packages[i]? = some id) :
    indexMap packages id = some i := by
  refine lastValue_of_unique ?_ (mem_zipIdx_iff_getElem?.2 h)
  rwa [zipIdx_map_fst]

theorem eq_of_errorIndex_eq {id' : PackageRef} (h : id ∈ packages) (h' : id' ∈ packages)
    (heq : errorIndex packages id = errorIndex packages id') : id = id' := by
  obtain ⟨i, hi⟩ := exists_indexMap h
  obtain ⟨j, hj⟩ := exists_indexMap h'
  rw [errorIndex, errorIndex, hi, hj, getD_some, getD_some] at heq
  have hget := getElem?_of_indexMap hi
  rw [heq, getElem?_of_indexMap hj] at hget
  exact (some.inj hget).symm

end IndexMap

open BatchSlot

/-! ### The state after all tasks -/

section Fold

variable {T Kind : Type} {packages : List PackageRef}

def valueWrites (packages : List PackageRef) (joined : List (BatchSlot T Kind)) : List (ℕ × T) :=
  joined.filterMap fun slot => slot.value?.bind fun v =>
    (indexMap packages slot.package).map fun idx => (idx, v)

/-- What the drain has after some tasks ended. -/
structure Drained (packages : List PackageRef) (before : Drain T Kind)
    (joined : List (BatchSlot T Kind)) (after : Drain T Kind) : Prop where
  pending : after.pending = before.pending.filter fun id =>
    joined.all fun slot => decide (slot.package ≠ id) || slot.isPanicked
  results : ∀ i, after.results[i]? =
    (before.results[i]?).map fun old => (lastValue (valueWrites packages joined) i).or old
  errors : after.errors = before.errors ++ (joined.filterMap BatchSlot.error?).map fun e =>
    (errorIndex packages e.identifier, e)

theorem join_foldl (joined : List (BatchSlot T Kind)) (d : Drain T Kind) :
    Drained packages d joined (joined.foldl (Drain.join packages) d) := by
  induction joined generalizing d with
  | nil => exact ⟨by simp, by simp [valueWrites], by simp⟩
  | cons slot joined ih =>
    have hrest := ih (d.join packages slot)
    rw [foldl_cons]
    obtain ⟨package, ending⟩ := slot
    cases ending with
    | panicked =>
      refine ⟨?_, ?_, ?_⟩
      · rw [hrest.pending]
        simp [Drain.join, isPanicked]
      · intro i
        rw [hrest.results i]
        simp [Drain.join, valueWrites, value?]
      · rw [hrest.errors]
        simp [Drain.join, error?, filterMap_cons]
    | failed kind =>
      refine ⟨?_, ?_, ?_⟩
      · rw [hrest.pending]
        simp only [Drain.join, List.filter_filter]
        refine List.filter_congr fun id _ => ?_
        simp [isPanicked, Bool.and_comm, eq_comm]
      · intro i
        rw [hrest.results i]
        simp [Drain.join, valueWrites, value?]
      · rw [hrest.errors]
        simp [Drain.join, error?]
    | value v =>
      refine ⟨?_, ?_, ?_⟩
      · rw [hrest.pending]
        simp only [Drain.join, List.filter_filter]
        refine List.filter_congr fun id _ => ?_
        simp [isPanicked, Bool.and_comm, eq_comm]
      · intro i
        rw [hrest.results i]
        have hwrites : valueWrites packages (⟨package, .value v⟩ :: joined) =
            ((indexMap packages package).map fun idx => (idx, v)).toList ++
              valueWrites packages joined := by
          simp only [valueWrites, filterMap_cons, value?, bind_some]
          cases indexMap packages package <;> rfl
        rw [hwrites, lastValue_append]
        cases hidx : indexMap packages package with
        | none => simp [Drain.join, hidx]
        | some idx =>
          simp only [Drain.join, hidx, elim_some, map_some, toList_some,
            lastValue_cons, lastValue_nil, none_or, getElem?_set]
          by_cases heq : idx = i
          · subst heq
            cases hold : d.results[idx]? with
            | none => simp [getElem?_eq_none_iff.1 hold]
            | some old =>
              have hlt := (List.getElem?_eq_some_iff.1 hold).1
              simp [hlt]
          · simp [heq]
      · rw [hrest.errors]
        simp [Drain.join, error?, filterMap_cons]

end Fold

/-! ### A batch that succeeds -/

section Batch

variable {T Kind : Type} {slots : List (BatchSlot T Kind)}

def batchPackages (slots : List (BatchSlot T Kind)) : List PackageRef :=
  slots.map BatchSlot.package

/-- The drain after all tasks of a batch ended. -/
def batchDrain (done : Completion slots) : Drain T Kind :=
  done.order.foldl (Drain.join (batchPackages slots)) (.start (batchPackages slots))

variable {slot : BatchSlot T Kind}

theorem mem_batchPackages (h : slot ∈ slots) :
    slot.package ∈ batchPackages slots :=
  mem_map_of_mem h

theorem mem_pending_batchDrain_iff (done : Completion slots) (id : PackageRef) :
    id ∈ (batchDrain done).pending ↔
      id ∈ batchPackages slots ∧ ∀ slot ∈ slots, slot.package = id → slot.isPanicked = true := by
  rw [batchDrain, (join_foldl done.order _).pending]
  simp [Drain.start, List.mem_filter, List.mem_dedup, List.all_eq_true, done.perm.mem_iff,
    Bool.or_eq_true, ne_eq, Classical.or_iff_not_imp_left]

theorem nodup_pending_batchDrain (done : Completion slots) : (batchDrain done).pending.Nodup := by
  rw [batchDrain, (join_foldl done.order _).pending]
  exact (nodup_dedup _).filter _

theorem errors_batchDrain (done : Completion slots) :
    (batchDrain done).errors = (done.order.filterMap error?).map fun e =>
      (errorIndex (batchPackages slots) e.identifier, e) := by
  rw [batchDrain, (join_foldl done.order _).errors, Drain.start, nil_append]

/-- The value of a slot after all tasks ended. -/
def valueAt (done : Completion slots) (i : ℕ) : Option T :=
  lastValue (valueWrites (batchPackages slots) done.order) i

theorem results_batchDrain (done : Completion slots) :
    (batchDrain done).results = (range slots.length).map (valueAt done) := by
  refine ext_getElem? fun i => ?_
  rw [batchDrain, (join_foldl done.order _).results i, getElem?_map]
  simp only [Drain.start, batchPackages, List.getElem?_map, Option.map_map]
  by_cases hi : i < slots.length
  · simp [hi, valueAt, batchPackages, Function.comp_def]
  · rw [getElem?_eq_none (by omega), getElem?_eq_none (by simpa using hi)]
    rfl

theorem exists_of_valueAt {done : Completion slots} {i : ℕ} {v : T}
    (h : valueAt done i = some v) :
    ∃ slot ∈ slots, slot.ending = .value v ∧
      indexMap (batchPackages slots) slot.package = some i := by
  have hmem := mem_of_lastValue_eq_some h
  rw [valueWrites, mem_filterMap] at hmem
  obtain ⟨slot, hslot, hbind⟩ := hmem
  rw [bind_eq_some_iff] at hbind
  obtain ⟨w, hw, hmap⟩ := hbind
  rw [map_eq_some_iff] at hmap
  obtain ⟨idx, hidx, heq⟩ := hmap
  cases heq
  refine ⟨slot, done.perm.mem_iff.1 hslot, ?_, hidx⟩
  obtain ⟨package, ending⟩ := slot
  cases ending <;> simp_all [value?]

theorem exists_valueAt {done : Completion slots} (hslot : slot ∈ slots)
    (hvalue : slot.isFailed = false) {i : ℕ}
    (hi : indexMap (batchPackages slots) slot.package = some i) : ∃ v, valueAt done i = some v := by
  obtain ⟨v, hv⟩ : ∃ v, slot.value? = some v := by
    rw [← isSome_iff_exists, ← not_isNone]
    simpa [isFailed] using hvalue
  refine isSome_iff_exists.1 (isSome_iff_ne_none.2 fun hnone => ?_)
  refine absurd rfl (lastValue_eq_none_iff.1 hnone (i, v) ?_)
  rw [valueWrites, mem_filterMap]
  exact ⟨slot, done.perm.mem_iff.2 hslot, by rw [hv, bind_some, hi]; rfl⟩

/-- The errors of a batch as they are collected. -/
def batchErrors (iterate : ∀ pending : List PackageRef, Completion pending)
    (done : Completion slots) : List (ℕ × BatchError Kind) :=
  (batchDrain done).errors ++ (iterate (batchDrain done).pending).order.map fun id =>
    (errorIndex (batchPackages slots) id, ⟨id, .taskPanicked⟩)

variable {iterate : ∀ pending : List PackageRef, Completion pending} {done : Completion slots}

theorem drainPackageTasks_eq_ok (h : batchErrors iterate done = []) :
    drainPackageTasks iterate (batchPackages slots) done.order =
      .ok ((range slots.length).filterMap (valueAt done)) := by
  have hok : drainPackageTasks iterate (batchPackages slots) done.order =
      .ok ((batchDrain done).results.filterMap id) :=
    if_pos (isEmpty_iff.2 h)
  rw [hok, results_batchDrain, filterMap_map, Function.id_comp]

theorem drainPackageTasks_eq_error (h : batchErrors iterate done ≠ []) :
    drainPackageTasks iterate (batchPackages slots) done.order =
      .error (((batchErrors iterate done).mergeSort fun a b => a.1 ≤ b.1).map Prod.snd) :=
  if_neg fun hempty => h (isEmpty_iff.1 hempty)

theorem BatchSlot.isFailed_eq_false_of (h : slot.isFailed = false) :
    slot.error? = none ∧ slot.isPanicked = false := by
  obtain ⟨package, ending⟩ := slot
  cases ending <;> simp_all [isFailed, value?, error?, isPanicked]

theorem batchErrors_eq_nil (hall : ∀ slot ∈ slots, slot.isFailed = false) :
    batchErrors iterate done = [] := by
  have hreported : done.order.filterMap error? = [] := by
    rw [filterMap_eq_nil_iff]
    exact fun slot hslot =>
      (isFailed_eq_false_of (hall slot (done.perm.mem_iff.1 hslot))).1
  have hpending : (batchDrain done).pending = [] := by
    refine eq_nil_iff_forall_not_mem.2 fun id hid => ?_
    obtain ⟨hlisted, hpanicked⟩ := (mem_pending_batchDrain_iff done id).1 hid
    obtain ⟨slot, hslot, rfl⟩ := mem_map.1 hlisted
    have hnot := (isFailed_eq_false_of (hall slot hslot)).2
    exact absurd (hpanicked slot hslot rfl) (by simp [hnot])
  have hnone : (iterate (batchDrain done).pending).order = [] := by
    have hperm := (iterate (batchDrain done).pending).perm
    rw [hpending] at hperm ⊢
    exact hperm.eq_nil
  rw [batchErrors, errors_batchDrain, hreported, hnone]
  rfl

theorem forall₂_values (hall : ∀ slot ∈ slots, slot.isFailed = false)
    (hnodup : (batchPackages slots).Nodup) :
    List.Forall₂ (fun slot v => ∃ producer ∈ slots, producer.package = slot.package ∧
      producer.ending = .value v) slots ((range slots.length).filterMap (valueAt done)) := by
  have hrange : List.Forall₂ (fun i v => ∀ h : i < slots.length,
      ∃ producer ∈ slots, producer.package = slots[i].package ∧ producer.ending = .value v)
      (range slots.length) ((range slots.length).filterMap (valueAt done)) := by
    refine forall₂_filterMap fun i hi => ?_
    have hlt := mem_range.1 hi
    have hget : (batchPackages slots)[i]? = some slots[i].package := by
      simp [batchPackages, hlt]
    obtain ⟨v, hv⟩ := exists_valueAt (getElem_mem hlt) (hall _ (getElem_mem hlt))
      (indexMap_of_nodup hnodup hget)
    obtain ⟨producer, hproducer, hending, hidx⟩ := exists_of_valueAt hv
    have hpackage := getElem?_of_indexMap hidx
    rw [hget, some.injEq] at hpackage
    exact ⟨v, hv, fun _ => ⟨producer, hproducer, hpackage.symm, hending⟩⟩
  rw [forall₂_iff_get] at hrange ⊢
  refine ⟨by rw [← hrange.1, length_range], fun i h₁ h₂ => ?_⟩
  simpa using hrange.2 i (by simpa using h₁) h₂ (by simpa using h₁)

theorem nodup_of_length_values
    (hlength : ((range slots.length).filterMap (valueAt done)).length = slots.length) :
    (batchPackages slots).Nodup := by
  have hsome : ∀ i < slots.length, (valueAt done i).isSome = true := by
    rw [length_filterMap_eq_countP] at hlength
    have hcount := countP_eq_length.1 (hlength.trans length_range.symm)
    exact fun i hi => hcount i (mem_range.2 hi)
  have hlast : ∀ i id, (batchPackages slots)[i]? = some id →
      indexMap (batchPackages slots) id = some i := by
    intro i id hid
    have hi : i < slots.length := by
      simpa [batchPackages] using (List.getElem?_eq_some_iff.1 hid).1
    obtain ⟨v, hv⟩ := isSome_iff_exists.1 (hsome i hi)
    obtain ⟨slot, -, -, hidx⟩ := exists_of_valueAt hv
    have hget := getElem?_of_indexMap hidx
    rw [hid, some.injEq] at hget
    rwa [hget]
  refine nodup_iff_injective_get.2 fun i j hij => ?_
  have hi := hlast i _ (getElem?_eq_getElem i.2)
  have hj := hlast j _ (getElem?_eq_getElem j.2)
  have heq : (batchPackages slots)[i.1] = (batchPackages slots)[j.1] := hij
  rw [heq, hj, some.injEq] at hi
  exact Fin.ext hi.symm

/-! ### A batch that fails -/

theorem map_identifier_batchErrors :
    (batchErrors iterate done).map (fun e => e.2.identifier) =
      (done.order.filterMap error?).map BatchError.identifier ++
        (iterate (batchDrain done).pending).order := by
  simp [batchErrors, errors_batchDrain, Function.comp_def]

theorem fst_eq_of_mem_batchErrors {e : ℕ × BatchError Kind} (h : e ∈ batchErrors iterate done) :
    e.1 = errorIndex (batchPackages slots) e.2.identifier := by
  rw [batchErrors, errors_batchDrain, List.mem_append, List.mem_map, List.mem_map] at h
  obtain ⟨_, _, rfl⟩ | ⟨_, _, rfl⟩ := h <;> rfl

def failedPackages (slots : List (BatchSlot T Kind)) : List PackageRef :=
  (slots.filter BatchSlot.isFailed).map BatchSlot.package

theorem pairwise_failedPackages_iff {r : PackageRef → PackageRef → Prop} :
    (failedPackages slots).Pairwise r ↔
      (slots.filter isFailed).Pairwise fun a b => r a.package b.package :=
  pairwise_map

/-- The packages whose task panicked, in the order of the slots. -/
def panickedPackages (slots : List (BatchSlot T Kind)) : List PackageRef :=
  (slots.filter BatchSlot.isPanicked).map BatchSlot.package

theorem failedPackages_perm (slots : List (BatchSlot T Kind)) :
    (failedPackages slots).Perm
      ((slots.filterMap error?).map BatchError.identifier ++ panickedPackages slots) := by
  induction slots with
  | nil => exact .nil
  | cons slot slots ih =>
    obtain ⟨package, ending⟩ := slot
    cases ending with
    | value v => exact ih
    | failed kind => exact ih.cons package
    | panicked => exact (ih.cons package).trans perm_middle.symm

theorem perm_failedPackages_iff (iterate : ∀ pending : List PackageRef, Completion pending)
    (done : Completion slots) :
    ((batchErrors iterate done).map fun e => e.2.identifier).Perm (failedPackages slots) ↔
      (batchDrain done).pending.Perm (panickedPackages slots) := by
  rw [map_identifier_batchErrors, (failedPackages_perm slots).congr_right]
  have hreported := (done.perm.filterMap error?).map BatchError.identifier
  rw [(hreported.append_right _).congr_left, perm_append_left_iff]
  exact (iterate (batchDrain done).pending).perm.congr_left _

theorem count_panickedPackages (id : PackageRef) :
    (panickedPackages slots).count id =
      slots.countP fun slot => decide (slot.package = id) && slot.isPanicked := by
  rw [panickedPackages, count, countP_map, countP_filter]
  exact countP_congr fun slot _ => by simp

theorem count_batchPackages (id : PackageRef) :
    (batchPackages slots).count id =
      (panickedPackages slots).count id +
        slots.countP fun slot => decide (slot.package = id) && !slot.isPanicked := by
  rw [count_panickedPackages]
  induction slots with
  | nil => rfl
  | cons slot slots ih =>
    rw [batchPackages, map_cons, count_cons, countP_cons, countP_cons]
    rw [batchPackages] at ih
    by_cases hid : slot.package = id <;> cases slot.isPanicked <;> simp [hid] <;> omega

theorem pending_perm_iff (done : Completion slots) :
    (batchDrain done).pending.Perm (panickedPackages slots) ↔
      ∀ slot ∈ slots, slot.isPanicked = true → (batchPackages slots).count slot.package = 1 := by
  have hpending : ∀ id, (batchDrain done).pending.count id =
      if 0 < (batchPackages slots).count id ∧
        slots.countP (fun slot => decide (slot.package = id) && !slot.isPanicked) = 0
      then 1 else 0 := by
    intro id
    rw [(nodup_pending_batchDrain done).count]
    refine if_congr ?_ rfl rfl
    rw [mem_pending_batchDrain_iff, count_pos_iff, countP_eq_zero]
    simp
  rw [perm_iff_count]
  constructor
  · intro hcount slot hslot hpanicked
    have hpos : 0 < (panickedPackages slots).count slot.package :=
      count_pos_iff.2 (mem_map_of_mem (mem_filter.2 ⟨hslot, hpanicked⟩))
    have heq := hcount slot.package
    rw [hpending] at heq
    rw [count_batchPackages] at heq ⊢
    split_ifs at heq <;> omega
  · intro honce id
    rw [hpending]
    rcases Nat.eq_zero_or_pos ((panickedPackages slots).count id) with hzero | hpos
    · rw [hzero, if_neg]
      rintro ⟨hlisted, hnone⟩
      rw [count_batchPackages, hzero, hnone] at hlisted
      exact absurd hlisted (by omega)
    · obtain ⟨slot, hslot, rfl⟩ := mem_map.1 (count_pos_iff.1 hpos)
      obtain ⟨hmem, hpanicked⟩ := mem_filter.1 hslot
      have hone := honce slot hmem hpanicked
      rw [count_batchPackages] at hone ⊢
      rw [if_pos (by omega)]
      omega

theorem pairwise_names :
    (((batchErrors iterate done).mergeSort fun a b => a.1 ≤ b.1).map
      fun e => e.2.identifier).Pairwise fun a b =>
        errorIndex (batchPackages slots) a ≤ errorIndex (batchPackages slots) b := by
  have hsorted : ((batchErrors iterate done).mergeSort fun a b => a.1 ≤ b.1).Pairwise
      fun a b => decide (a.1 ≤ b.1) = true :=
    pairwise_mergeSort (fun a b c hab hbc => by simp at *; omega)
      (fun a b => by simp; omega) _
  rw [pairwise_map]
  refine hsorted.imp_of_mem fun ha hb hab => ?_
  rw [← fst_eq_of_mem_batchErrors (mem_mergeSort.1 ha),
    ← fst_eq_of_mem_batchErrors (mem_mergeSort.1 hb)]
  simpa using hab

/-- The errors name the failed packages in the order of the slots exactly if every panicked task is
named and the failed packages come in the order of their last slots. -/
theorem names_eq_failedPackages_iff :
    ((batchErrors iterate done).mergeSort fun a b => a.1 ≤ b.1).map (fun e => e.2.identifier) =
        failedPackages slots ↔
      (∀ slot ∈ slots, slot.isPanicked = true →
        (batchPackages slots).count slot.package = 1) ∧
      (failedPackages slots).Pairwise fun a b =>
        errorIndex (batchPackages slots) a ≤ errorIndex (batchPackages slots) b := by
  have hperm := (mergeSort_perm (batchErrors iterate done) fun a b => a.1 ≤ b.1).map
    fun e => e.2.identifier
  rw [← pending_perm_iff done, ← perm_failedPackages_iff iterate done]
  constructor
  · intro heq
    exact ⟨heq ▸ hperm.symm, heq ▸ pairwise_names⟩
  · rintro ⟨hnames, hsorted⟩
    have hlisted : ∀ id ∈ failedPackages slots, id ∈ batchPackages slots := by
      intro id hid
      obtain ⟨slot, hslot, rfl⟩ := mem_map.1 hid
      exact mem_batchPackages (mem_filter.1 hslot).1
    refine (hperm.trans hnames).eq_of_pairwise ?_ pairwise_names hsorted
    intro a b ha hb hab hba
    have ha' := hlisted a ((hperm.trans hnames).subset ha)
    exact eq_of_errorIndex_eq ha' (hlisted b hb) (le_antisymm hab hba)

theorem batchErrors_ne_nil_of_names (hslot : slot ∈ slots)
    (hfailed : slot.isFailed = true)
    (hnames : ((batchErrors iterate done).mergeSort fun a b => a.1 ≤ b.1).map
      (fun e => e.2.identifier) = failedPackages slots) : batchErrors iterate done ≠ [] := by
  intro hnil
  have hmem : slot.package ∈ failedPackages slots :=
    mem_map_of_mem (mem_filter.2 ⟨hslot, hfailed⟩)
  rw [← hnames, hnil] at hmem
  simp at hmem

/-! ### When the result fits the slots -/

theorem aligned_iff_of_succeeded (hall : ∀ slot ∈ slots, slot.isFailed = false) :
    Aligned slots (drainPackageTasks iterate (batchPackages slots) done.order) ↔
      AlignedWhen slots := by
  have hnil : batchErrors iterate done = [] := batchErrors_eq_nil hall
  have hnone : slots.filter isFailed = [] := by
    simpa [filter_eq_nil_iff] using hall
  rw [drainPackageTasks_eq_ok hnil]
  constructor
  · intro haligned
    obtain ⟨values, hvalues, hfits⟩ := haligned.succeeded hall
    cases hvalues
    refine ⟨fun _ => nodup_of_length_values hfits.length_eq.symm, ?_, by rw [hnone]; exact .nil⟩
    intro slot hslot hpanicked
    exact absurd hpanicked (by simp [(isFailed_eq_false_of (hall slot hslot)).2])
  · intro hwhen
    refine ⟨fun _ => ⟨_, rfl, forall₂_values hall (hwhen.distinct hall)⟩, ?_⟩
    rintro ⟨slot, hslot, hfailed⟩
    exact absurd hfailed (by simp [hall slot hslot])

theorem aligned_iff_of_failed (hslot : slot ∈ slots)
    (hfailed : slot.isFailed = true) :
    Aligned slots (drainPackageTasks iterate (batchPackages slots) done.order) ↔
      AlignedWhen slots := by
  have hnot : ¬∀ slot ∈ slots, slot.isFailed = false := fun hall => by
    simp [hall slot hslot] at hfailed
  constructor
  · intro haligned
    obtain ⟨errors, herrors, hnames⟩ := haligned.failed ⟨slot, hslot, hfailed⟩
    have hne : batchErrors iterate done ≠ [] := by
      intro hnil
      rw [drainPackageTasks_eq_ok hnil] at herrors
      cases herrors
    rw [drainPackageTasks_eq_error hne] at herrors
    cases herrors
    rw [List.map_map] at hnames
    obtain ⟨hpanics, hsorted⟩ := names_eq_failedPackages_iff.1 hnames
    exact ⟨fun hall => absurd hall hnot, hpanics, pairwise_failedPackages_iff.1 hsorted⟩
  · intro hwhen
    have hnames : ((batchErrors iterate done).mergeSort fun a b => a.1 ≤ b.1).map
        (fun e => e.2.identifier) = failedPackages slots :=
      names_eq_failedPackages_iff.2 ⟨hwhen.panics, pairwise_failedPackages_iff.2 hwhen.sorted⟩
    have hne := batchErrors_ne_nil_of_names hslot hfailed hnames
    refine ⟨fun hall => absurd hall hnot, fun _ => ⟨_, drainPackageTasks_eq_error hne, ?_⟩⟩
    rw [List.map_map]
    exact hnames

/-- **A batch fits its slots exactly if `AlignedWhen` holds.** In particular this does not depend on
the order in which the tasks end. -/
theorem aligned_iff (iterate : ∀ pending : List PackageRef, Completion pending)
    (slots : List (BatchSlot T Kind)) (done : Completion slots) :
    Aligned slots (drainPackageTasks iterate (slots.map package) done.order) ↔
      AlignedWhen slots := by
  by_cases hall : ∀ slot ∈ slots, slot.isFailed = false
  · exact aligned_iff_of_succeeded hall
  · simp only [not_forall, Bool.not_eq_false] at hall
    obtain ⟨slot, hslot, hfailed⟩ := hall
    exact aligned_iff_of_failed hslot hfailed

end Batch

/-- What `compose_roots` does with the values: they are put into the slots of the packages that are
installed before the environment is composed. -/
def zipIntoSlots {T : Type} (length : ℕ) (eager : List (ℕ × PackageRef)) (found : List T) :
    List (Option T) :=
  (eager.zip found).foldl (fun slots entry => slots.set entry.1.1 (some entry.2))
    (List.replicate length none)

/-- The same package twice, then another one. The tasks all succeed, there are two values for three
slots, and the second slot gets the value of the other package. -/
theorem repeated_misaligned :
    let cmake : PackageRef := ⟨"ocx.sh", "cmake", some "3.28", none⟩
    let ninja : PackageRef := ⟨"ocx.sh", "ninja", some "1.12", none⟩
    let slots : List (BatchSlot String Unit) :=
      [⟨cmake, .value "cmake"⟩, ⟨cmake, .value "cmake"⟩, ⟨ninja, .value "ninja"⟩]
    let result := drainPackageTasks Completion.inOrder (slots.map package) slots
    result = .ok ["cmake", "ninja"] ∧ ¬Aligned slots result ∧
      zipIntoSlots 3 [(0, cmake), (1, cmake), (2, ninja)] ["cmake", "ninja"] =
        [some "cmake", some "ninja", none] := by
  intro cmake ninja slots result
  have hresult : result = .ok ["cmake", "ninja"] := by rfl
  refine ⟨hresult, fun haligned => ?_, by rfl⟩
  obtain ⟨values, hvalues, hfits⟩ := haligned.succeeded (by decide)
  rw [hresult] at hvalues
  cases hvalues
  exact absurd hfits.length_eq (by decide)

end Ocx
