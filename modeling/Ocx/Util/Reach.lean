import Mathlib

/-!
# Reachability and breadth-first search

Reachability from a set of roots along an edge relation, the rule that says when a smaller
graph reaches the same nodes, and a queue-based breadth-first search that computes the reached
nodes of a graph with finitely many edges.

The search counts its steps down from a bound.  `searchCost` is the bound it needs: one step for
each node that is ever queued, and a node's successors are queued once, when it is expanded.
-/

namespace Ocx

open List

variable {α : Type*}

/-! ### Reachability -/

/-- The nodes reached from the nodes `root` along `edge`. -/
def Reach (root : α → Prop) (edge : α → α → Prop) (x : α) : Prop :=
  ∃ r, root r ∧ Relation.ReflTransGen edge r x

namespace Reach

variable {root root' : α → Prop} {edge edge' : α → α → Prop} {x y : α}

theorem of_root (h : root x) : Reach root edge x :=
  ⟨x, h, .refl⟩

theorem step (h : Reach root edge x) (hxy : edge x y) : Reach root edge y := by
  obtain ⟨r, hr, hpath⟩ := h
  exact ⟨r, hr, hpath.tail hxy⟩

theorem rec_on {P : α → Prop} (h : Reach root edge x) (base : ∀ r, root r → P r)
    (tail : ∀ a b, Reach root edge a → edge a b → P a → P b) : P x := by
  obtain ⟨r, hr, hpath⟩ := h
  induction hpath with
  | refl => exact base r hr
  | tail hra hab ih => exact tail _ _ ⟨r, hr, hra⟩ hab ih

theorem mono (hroot : ∀ r, root r → root' r) (hedge : ∀ a b, edge a b → edge' a b)
    (h : Reach root edge x) : Reach root' edge' x :=
  h.rec_on (fun r hr => of_root (hroot r hr)) fun a b _ hab ih => ih.step (hedge a b hab)

theorem labelled_iff {ι : Type*} (start : α × ι → Prop) (edge : α → α → Prop) {x : α} {l : ι} :
    Reach start (fun a b => b.2 = a.2 ∧ edge a.1 b.1) (x, l) ↔
      Reach (fun r => start (r, l)) edge x := by
  constructor
  · intro h
    refine rec_on (P := fun y => Reach (fun r => start (r, y.2)) edge y.1) h
      (fun r hr => of_root hr) ?_
    rintro ⟨a, la⟩ ⟨b, lb⟩ _ ⟨hlabel, hab⟩ ih
    subst hlabel
    exact ih.step hab
  · intro h
    exact h.rec_on (fun r hr => of_root hr) fun a b _ hab ih => ih.step ⟨rfl, hab⟩

/-- **The same nodes are reached** from the same roots when no edge is new and every edge out of a
reached node is kept. -/
theorem congr (hroot : ∀ r, root' r ↔ root r) (hsub : ∀ a b, edge' a b → edge a b)
    (hkeep : ∀ a b, Reach root edge a → edge a b → edge' a b) :
    Reach root' edge' x ↔ Reach root edge x := by
  constructor
  · exact mono (fun r => (hroot r).1) hsub
  · intro h
    exact h.rec_on (fun r hr => of_root ((hroot r).2 hr))
      fun a b ha hab ih => ih.step (hkeep a b ha hab)

end Reach

/-! ### The invariant of a search -/

section Invariant

variable {next : α → List α} {start : α → Prop} {queue visited : List α} {x : α}

/-- What the loop has established: the visited nodes are reached, and so are the queued ones. -/
structure SearchInv (next : α → List α) (start : α → Prop) (queue visited : List α) : Prop where
  visited_reach : ∀ y ∈ visited, Reach start (fun a b => b ∈ next a) y
  queue_reach : ∀ y ∈ queue, Reach start (fun a b => b ∈ next a) y
  starts : ∀ y, start y → y ∈ visited ∨ y ∈ queue
  closed : ∀ y ∈ visited, ∀ z ∈ next y, z ∈ visited ∨ z ∈ queue

theorem SearchInv.skip (h : SearchInv next start (x :: queue) visited) (hx : x ∈ visited) :
    SearchInv next start queue visited where
  visited_reach := h.visited_reach
  queue_reach y hy := h.queue_reach y (mem_cons_of_mem _ hy)
  starts y hy := by
    have := h.starts y hy
    grind
  closed y hy z hz := by
    have := h.closed y hy z hz
    grind

theorem SearchInv.expand (h : SearchInv next start (x :: queue) visited) :
    SearchInv next start (queue ++ next x) (x :: visited) where
  visited_reach := by
    intro y hy
    rcases mem_cons.1 hy with rfl | hy
    · exact h.queue_reach y mem_cons_self
    · exact h.visited_reach y hy
  queue_reach := by
    intro y hy
    rcases mem_append.1 hy with hy | hy
    · exact h.queue_reach y (mem_cons_of_mem _ hy)
    · exact (h.queue_reach x mem_cons_self).step hy
  starts y hy := by
    have := h.starts y hy
    grind
  closed y hy z hz := by
    have := h.closed y
    grind

theorem SearchInv.mem_iff (h : SearchInv next start [] visited) :
    x ∈ visited ↔ Reach start (fun a b => b ∈ next a) x := by
  refine ⟨h.visited_reach x, fun hx => ?_⟩
  refine hx.rec_on (fun r hr => ?_) fun a b _ hab ha => ?_
  · simpa using h.starts r hr
  · simpa using h.closed a ha b hab

end Invariant

/-! ### The search -/

section Search

variable [DecidableEq α] (next : α → List α)

/-- The queue loop: the first queued node is skipped when it was visited, and otherwise visited
with its successors queued behind the others. -/
def bfsLoop : ℕ → List α → List α → List α
  | 0, _, visited => visited
  | _ + 1, [], visited => visited
  | n + 1, x :: queue, visited =>
    if x ∈ visited then bfsLoop n queue visited
    else bfsLoop n (queue ++ next x) (x :: visited)

/-- The steps a search from `starts` takes at most, when only `sources` have successors. -/
def searchCost (sources starts : List α) : ℕ :=
  starts.length + (sources.dedup.map fun y => (next y).length).sum

/-- Breadth-first search from `starts`, in a graph where only `sources` have successors. -/
def bfs (sources starts : List α) : List α :=
  bfsLoop next (searchCost next sources starts) starts []

/-- The steps still to take: the queued nodes, and the successors of what is not visited yet. -/
def pendingCost (sources : Finset α) (queue visited : List α) : ℕ :=
  queue.length + ∑ y ∈ sources.filter (· ∉ visited), (next y).length

variable {next} {sources : Finset α} {queue visited : List α} {start : α → Prop} {x : α}

theorem pendingCost_expand (queue : List α) (hsources : x ∉ sources → next x = [])
    (hx : x ∉ visited) :
    pendingCost next sources (queue ++ next x) (x :: visited) + 1 =
      pendingCost next sources (x :: queue) visited := by
  unfold pendingCost
  simp only [length_append, length_cons]
  by_cases hmem : x ∈ sources
  · -- the successors of `x` move from the sum into the queue
    have hsplit : sources.filter (· ∉ visited) = insert x (sources.filter (· ∉ x :: visited)) := by
      ext y
      by_cases hyx : y = x
      · simp [hyx, hmem, hx]
      · simp [hyx]
    have hnot : x ∉ sources.filter (· ∉ x :: visited) := by simp
    rw [hsplit, Finset.sum_insert hnot]
    omega
  · have hsame : sources.filter (· ∉ x :: visited) = sources.filter (· ∉ visited) := by
      ext y
      by_cases hyx : y = x
      · simp [hyx, hmem]
      · simp [hyx]
    rw [hsame, hsources hmem]
    simp only [length_nil]
    omega

theorem mem_bfsLoop_iff (sources : Finset α)
    (hsources : ∀ y, Reach start (fun a b => b ∈ next a) y → y ∉ sources → next y = []) (n : ℕ)
    (hn : pendingCost next sources queue visited ≤ n)
    (h : SearchInv next start queue visited) :
    x ∈ bfsLoop next n queue visited ↔ Reach start (fun a b => b ∈ next a) x := by
  -- each turn takes one node off the queue and one off the pending cost
  induction n generalizing queue visited with
  | zero =>
    have hempty : queue = [] := by
      rw [← length_eq_zero_iff]
      unfold pendingCost at hn
      omega
    subst hempty
    exact h.mem_iff
  | succ n ih =>
    cases queue with
    | nil => exact h.mem_iff
    | cons y queue =>
      unfold bfsLoop
      split
      · rename_i hy
        refine ih ?_ (h.skip hy)
        unfold pendingCost at hn ⊢
        simp only [length_cons] at hn
        omega
      · rename_i hy
        refine ih ?_ h.expand
        have hreach := h.queue_reach y mem_cons_self
        have := pendingCost_expand queue (hsources y hreach) hy
        omega

/-- **The search is exact**: it visits the nodes reached from its starts and no others. Only the
reached nodes with successors have to be among the sources. -/
theorem mem_bfs_iff_of_reach {sources starts : List α}
    (hsources : ∀ y, Reach (· ∈ starts) (fun a b => b ∈ next a) y → y ∉ sources → next y = []) :
    x ∈ bfs next sources starts ↔ Reach (· ∈ starts) (fun a b => b ∈ next a) x := by
  refine mem_bfsLoop_iff sources.toFinset ?_ _ ?_ ?_
  · intro y hreach hy
    exact hsources y hreach (by simpa using hy)
  · unfold pendingCost searchCost
    have hdedup : sources.dedup.toFinset = sources.toFinset := by
      ext y
      simp
    rw [← sum_toFinset _ sources.nodup_dedup, hdedup]
    simp
  · exact ⟨by simp, fun y hy => .of_root hy, fun y hy => .inr hy, by simp⟩

theorem mem_bfs_iff {sources starts : List α} (hsources : ∀ y, y ∉ sources → next y = []) :
    x ∈ bfs next sources starts ↔ Reach (· ∈ starts) (fun a b => b ∈ next a) x :=
  mem_bfs_iff_of_reach fun y _ => hsources y

end Search

end Ocx
