import Mathlib

/-!
# Best scores with ties

A loop over candidates that keeps those with the best score so far: a worse candidate is passed
over, an equal one joins, a better one replaces all.  It ends with the candidates of greatest score,
in the order of the list.
-/

namespace Ocx

open List

variable {α β σ : Type*} [LinearOrder σ]

/-- Take a candidate into account: the best score so far, and what is kept of its candidates. -/
def keepBest (score : α → σ) (item : α → β) (best : Option σ × List β) (x : α) :
    Option σ × List β :=
  match best.1 with
  | some current =>
    if score x < current then best
    else if score x = current then (best.1, best.2 ++ [item x])
    else (some (score x), [item x])
  | none => (some (score x), [item x])

/-- No candidate of the list has a greater score. -/
def IsTop (score : α → σ) (l : List α) (x : α) : Prop := ∀ y ∈ l, score y ≤ score x

instance (score : α → σ) (l : List α) (x : α) : Decidable (IsTop score l x) :=
  inferInstanceAs (Decidable (∀ y ∈ l, score y ≤ score x))

variable {score : α → σ} {item : α → β} {l l' : List α}

/-- What the loop has after the candidates of a list. -/
structure KeepsBest (score : α → σ) (item : α → β) (l : List α) (best : Option σ × List β) :
    Prop where
  /-- Without a score there was no candidate. -/
  none_iff : best.1 = none ↔ l = []
  score_eq : ∀ m, best.1 = some m → (∃ y ∈ l, score y = m) ∧ ∀ y ∈ l, score y ≤ m
  /-- Its candidates are kept in order. -/
  items_eq : best.2 = (l.filter fun x => IsTop score l x).map item

theorem keepsBest_nil : KeepsBest score item [] (none, []) :=
  ⟨by simp, by simp, rfl⟩

theorem filter_isTop_eq {m : σ} (hm : (∃ y ∈ l, score y = m) ∧ ∀ y ∈ l, score y ≤ m) :
    (l.filter fun x => IsTop score l x) = l.filter fun x => score x = m := by
  obtain ⟨⟨y, hy, rfl⟩, hle⟩ := hm
  refine filter_congr fun x hx => ?_
  rw [decide_eq_decide]
  constructor
  · intro htop
    exact le_antisymm (hle x hx) (htop y hy)
  · intro heq z hz
    rw [heq]
    exact hle z hz

theorem keepsBest_of_max {m : σ} {items : List β}
    (hm : (∃ y ∈ l, score y = m) ∧ ∀ y ∈ l, score y ≤ m)
    (hitems : items = (l.filter fun x => score x = m).map item) :
    KeepsBest score item l (some m, items) := by
  refine ⟨?_, fun m' hm' => Option.some.inj hm' ▸ hm, ?_⟩
  · obtain ⟨⟨y, hy, -⟩, -⟩ := hm
    simp [ne_nil_of_mem hy]
  · rw [filter_isTop_eq hm]
    exact hitems

theorem KeepsBest.step {best : Option σ × List β} (h : KeepsBest score item l best) (x : α) :
    KeepsBest score item (l ++ [x]) (keepBest score item best x) := by
  -- a new greatest score is only that of the new candidate
  have hnew (hlt : ∀ y ∈ l, score y < score x) :
      KeepsBest score item (l ++ [x]) (some (score x), [item x]) := by
    have hnone : l.filter (fun y => score y = score x) = [] :=
      filter_eq_nil_iff.2 fun y hy => by simpa using (hlt y hy).ne
    refine keepsBest_of_max
      ⟨⟨x, by simp, rfl⟩, forall_mem_append.2 ⟨fun y hy => (hlt y hy).le, ?_⟩⟩ ?_
    · simp
    · simp [hnone]
  obtain ⟨m, items⟩ := best
  cases m with
  | none =>
    obtain rfl : l = [] := h.none_iff.1 rfl
    exact hnew (by simp)
  | some m =>
    have hmax := h.score_eq m rfl
    have hitems : items = _ := h.items_eq
    rw [filter_isTop_eq hmax] at hitems
    obtain ⟨⟨w, hw, hwm⟩, hle⟩ := hmax
    show KeepsBest score item (l ++ [x]) (if score x < m then _ else _)
    split_ifs with hlt heq
    · refine keepsBest_of_max ⟨⟨w, by simp [hw], hwm⟩, forall_mem_append.2 ⟨hle, ?_⟩⟩ ?_
      · simpa using hlt.le
      · simp [hitems, hlt.ne]
    · refine keepsBest_of_max ⟨⟨x, by simp, heq⟩, forall_mem_append.2 ⟨hle, by simp [heq]⟩⟩ ?_
      simp [hitems, heq]
    · refine hnew fun y hy => lt_of_le_of_lt (hle y hy) ?_
      exact lt_of_le_of_ne (not_lt.1 hlt) (Ne.symm heq)

theorem keepsBest_foldl (score : α → σ) (item : α → β) (l : List α) :
    KeepsBest score item l (l.foldl (keepBest score item) (none, [])) := by
  induction l using reverseRecOn with
  | nil => exact keepsBest_nil
  | append_singleton l x ih =>
    rw [foldl_concat]
    exact ih.step x

/-- **The best candidates.** The loop keeps the candidates of greatest score. -/
theorem foldl_keepBest (score : α → σ) (item : α → β) (l : List α) :
    (l.foldl (keepBest score item) (none, [])).2 =
      (l.filter fun x => IsTop score l x).map item :=
  (keepsBest_foldl score item l).items_eq

theorem perm_top (h : l.Perm l') :
    (l.filter fun x => IsTop score l x).Perm (l'.filter fun x => IsTop score l' x) := by
  have htop : (fun x => decide (IsTop score l x)) = fun x => decide (IsTop score l' x) := by
    funext x
    rw [decide_eq_decide]
    exact forall_congr' fun y => by rw [h.mem_iff]
  rw [htop]
  exact h.filter _

theorem top_eq_nil_iff : (l.filter fun x => IsTop score l x) = [] ↔ l = [] := by
  have hkept := keepsBest_foldl score id l
  constructor
  · intro h
    rw [← hkept.none_iff]
    by_contra hne
    obtain ⟨m, hm⟩ := Option.ne_none_iff_exists'.1 hne
    obtain ⟨⟨y, hy, rfl⟩, hle⟩ := hkept.score_eq m hm
    exact filter_eq_nil_iff.1 h y hy (decide_eq_true hle)
  · rintro rfl
    rfl

/-- One candidate alone is top exactly when it beats every other candidate of the list. -/
theorem top_eq_singleton_iff {x : α} : (l.filter fun x => IsTop score l x) = [x] ↔
    ∃ before after, l = before ++ x :: after ∧ ∀ y ∈ before ++ after, score y < score x := by
  constructor
  · intro h
    obtain ⟨before, after, rfl, hbefore, htop, hafter⟩ := filter_eq_cons_iff.1 h
    have htop : IsTop score (before ++ x :: after) x := by simpa using htop
    refine ⟨before, after, rfl, fun y hy => ?_⟩
    have hmem : y ∈ before ++ x :: after := by
      rw [mem_append] at hy ⊢
      exact hy.imp_right (mem_cons_of_mem x)
    refine lt_of_le_of_ne (htop y hmem) fun heq => ?_
    -- a candidate of the same score would be top as well
    have hytop : IsTop score (before ++ x :: after) y := fun z hz => (htop z hz).trans heq.ge
    rcases mem_append.1 hy with hy | hy
    · exact hbefore y hy (by simpa using hytop)
    · exact filter_eq_nil_iff.1 hafter y hy (by simpa using hytop)
  · rintro ⟨before, after, rfl, hlt⟩
    have hbeaten : ∀ y ∈ before ++ after, ¬ IsTop score (before ++ x :: after) y :=
      fun y hy htop => (hlt y hy).not_ge (htop x (by simp))
    refine filter_eq_cons_iff.2 ⟨before, after, rfl, fun y hy => ?_, ?_, ?_⟩
    · simpa using hbeaten y (mem_append_left _ hy)
    · simp only [decide_eq_true_eq]
      obtain ⟨hbefore, hafter⟩ := forall_mem_append.1 hlt
      exact forall_mem_append.2 ⟨fun y hy => (hbefore y hy).le,
        forall_mem_cons.2 ⟨le_rfl, fun y hy => (hafter y hy).le⟩⟩
    · exact filter_eq_nil_iff.2 fun y hy => by
        simpa using hbeaten y (mem_append_right _ hy)

end Ocx
