import Mathlib

/-!
# Scans of sorted lists

Facts about reading a sorted list from the left.
-/

namespace Ocx

open List

variable {α : Type*} [LinearOrder α]

theorem mem_takeWhile_of_sorted {l : List α} (hl : l.Pairwise (· < ·)) {p : α → Bool}
    (hp : ∀ x ∈ l, ∀ y ∈ l, x < y → p y = true → p x = true) {x : α} :
    x ∈ l.takeWhile p ↔ x ∈ l ∧ p x = true := by
  constructor
  · intro h
    exact ⟨takeWhile_sublist p |>.subset h, mem_takeWhile_imp h⟩
  · rintro ⟨hx, hpx⟩
    induction l with
    | nil => simp at hx
    | cons a l ih =>
      rw [pairwise_cons] at hl
      have ha : p a = true := by
        rcases mem_cons.1 hx with rfl | hmem
        · exact hpx
        · exact hp a mem_cons_self x hx (hl.1 x hmem) hpx
      rw [takeWhile_cons_of_pos ha]
      rcases mem_cons.1 hx with rfl | hmem
      · exact mem_cons_self
      · refine mem_cons_of_mem _ (ih hl.2 (fun x hx y hy => ?_) hmem)
        exact hp x (mem_cons_of_mem _ hx) y (mem_cons_of_mem _ hy)

theorem le_getLastD_of_sorted {l : List α} (hl : l.Pairwise (· < ·)) {x : α} (hx : x ∈ l)
    (d : α) : x ≤ l.getLastD d := by
  induction l generalizing d with
  | nil => simp at hx
  | cons a l ih =>
    rw [pairwise_cons] at hl
    rw [getLastD_cons]
    rcases mem_cons.1 hx with rfl | hx
    · rcases mem_cons.1 (getLastD_mem_cons (l := l) (a := x)) with heq | h
      · exact heq.ge
      · exact (hl.1 _ h).le
    · exact ih hl.2 hx a

theorem eq_of_sorted_of_mem_iff {l l' : List α} (hl : l.Pairwise (· < ·))
    (hl' : l'.Pairwise (· < ·)) (h : ∀ x, x ∈ l ↔ x ∈ l') : l = l' :=
  List.Perm.eq_of_pairwise' hl hl' ((perm_ext_iff_of_nodup (hl.imp ne_of_lt)
    (hl'.imp ne_of_lt)).2 h)

theorem pairwise_lt_toList (s : Std.ExtTreeSet α) : s.toList.Pairwise (· < ·) := by
  refine s.ordered_toList.imp ?_
  intro a b h
  exact compare_lt_iff_lt.1 h

/-- Lists that keep the key of the element they replace keep a list sorted. -/
theorem pairwise_flatMap_of_key {α β γ : Type*} [Preorder γ] {l : List α} {f : α → List β}
    {k : α → γ} {k' : β → γ} (hl : l.Pairwise fun x y => k x ≤ k y)
    (hf : ∀ x ∈ l, ∀ y ∈ f x, k' y = k x) : (l.flatMap f).Pairwise fun x y => k' x ≤ k' y := by
  rw [pairwise_flatMap]
  constructor
  · intro x hx
    refine pairwise_iff_forall_sublist.2 fun {a b} hab => ?_
    rw [hf x hx a (hab.subset (by simp)), hf x hx b (hab.subset (by simp))]
  · refine hl.imp_of_mem fun hx hy hxy a ha b hb => ?_
    rw [hf _ hx a ha, hf _ hy b hb]
    exact hxy

end Ocx
