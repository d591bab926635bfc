import Ocx.Util.Merge

/-!
# Visits in order

A list of visits may come to the same place more than once.  `addAllNew` keeps each place at its
first visit; `List.dedup` keeps it at its last.
-/

namespace Ocx

open List

variable {α : Type*} [DecidableEq α]

/-- Move an element to the front, or put it there. -/
def bringToFront (l : List α) (a : α) : List α := a :: l.filter (· ≠ a)

theorem foldl_bringToFront {l : List α} (h : l.Nodup) : l.foldl bringToFront [] = l.reverse := by
  induction l using reverseRecOn with
  | nil => rfl
  | append_singleton l a ih =>
    obtain ⟨ha, hl⟩ := nodup_cons.1 (nodup_append_comm.1 h)
    rw [foldl_append, ih hl, foldl_cons, foldl_nil, bringToFront,
      reverse_append, reverse_singleton, singleton_append,
      filter_eq_self.2 fun b hb => ?_]
    have hne : b ≠ a := fun hba => ha (hba ▸ mem_reverse.1 hb)
    simpa using hne

/-- One more visit moves its place to the end. -/
theorem dedup_concat (l : List α) (a : α) :
    (l ++ [a]).dedup = l.dedup.filter (· ≠ a) ++ [a] := by
  induction l with
  | nil => rfl
  | cons b l ih =>
    rw [cons_append]
    by_cases hb : b ∈ l
    · rw [dedup_cons_of_mem (mem_append_left _ hb), dedup_cons_of_mem hb, ih]
    · rw [dedup_cons_of_notMem hb]
      by_cases hba : b = a
      · subst hba
        rw [dedup_cons_of_mem (by simp), ih]
        simp
      · rw [dedup_cons_of_notMem (by simp [hb, hba]), ih]
        simp [hba]

end Ocx
