import Ocx.Package.Closure

/-!
# What a gather collects

Whatever order the fetches finish in, a gather ends with every declared edge of the closure mapped
to its resolved identity, and with every such identity gathered.
-/

namespace Ocx

open List

variable {d : PinnedPackageRef} {before after : List (ℕ × ClosureEdge)}
  {task : ℕ × ClosureEdge} {gathered : List GatheredClosureNode}
  {identity : List (PinnedPackageRef × PinnedPackageRef)} {e : ClosureEdge}

def GatherState.Stored (s : GatherState) (slot : ℕ) (node : GatheredClosureNode) : Prop :=
  s.slots[slot]? = some (some node)

/-- The edges that are still to be fetched. -/
def GatherState.active (s : GatherState) : List (ℕ × ClosureEdge) := s.tasks ++ s.pending

structure GatherInv (c : Catalog) (frontier : List ClosureEdge) (s : GatherState) : Prop where
  slot_nodup : (s.active.map Prod.fst).Nodup
  /-- The slots of active edges are given out. -/
  slot_lt : ∀ t ∈ s.active, t.1 < s.nextSlot
  slot_free : ∀ t ∈ s.active, ∀ node, ¬ s.Stored t.1 node
  /-- The slots in use are given out. -/
  stored_lt : ∀ slot node, s.Stored slot node → slot < s.nextSlot
  /-- Discovered references are active or have a resolved identity. -/
  visited : ∀ d ∈ s.visited, (∃ t ∈ s.active, t.2.identifier.stripAdvisory = d) ∨
    ∃ k, (d, k) ∈ s.resolvedIdentity
  frontier : ∀ e ∈ frontier, e.identifier.stripAdvisory ∈ s.visited
  /-- Resolved identities are those of the catalog. -/
  identity : ∀ x ∈ s.resolvedIdentity, x.2 = (c.resolved x.1).stripAdvisory
  /-- Stored nodes come from the catalog, and their edges are discovered. -/
  stored : ∀ slot node, s.Stored slot node → (∃ d, node = c.fetchClosureNode d) ∧
    ∀ e ∈ node.edges, e.identifier.stripAdvisory ∈ s.visited
  seen : ∀ k ∈ s.resolvedSeen, ∃ slot node, s.Stored slot node ∧ node.identifier.stripAdvisory = k

open GatherState

section Inv

variable {c : Catalog} {F : List ClosureEdge} {s : GatherState}

theorem mem_visited_discover {edge : ClosureEdge} :
    d ∈ (s.discover edge).visited ↔ d ∈ s.visited ∨ d = edge.identifier.stripAdvisory := by
  rw [discover]
  split_ifs with h
  · exact ⟨.inl, fun hd => hd.elim id fun heq => heq ▸ h⟩
  · rw [mem_cons, or_comm]

theorem discover_of_notMem {edge : ClosureEdge} (h : edge.identifier.stripAdvisory ∉ s.visited) :
    s.discover edge = { s with
      visited := edge.identifier.stripAdvisory :: s.visited
      pending := s.pending ++ [(s.nextSlot, edge)]
      nextSlot := s.nextSlot + 1 } := if_neg h

theorem GatherInv.discover (h : GatherInv c F s) (edge : ClosureEdge) :
    GatherInv c F (s.discover edge) := by
  by_cases hmem : edge.identifier.stripAdvisory ∈ s.visited
  · rwa [GatherState.discover, if_pos hmem]
  have hs := discover_of_notMem hmem
  have hactive : (s.discover edge).active = s.active ++ [(s.nextSlot, edge)] := by
    rw [hs]
    simp [active]
  have hstored : ∀ slot node, (s.discover edge).Stored slot node ↔ s.Stored slot node := by
    rw [hs]
    exact fun _ _ => Iff.rfl
  have hidentity : (s.discover edge).resolvedIdentity = s.resolvedIdentity := by rw [hs]
  have hnext : (s.discover edge).nextSlot = s.nextSlot + 1 := by rw [hs]
  constructor
  · rw [hactive, map_append, map_singleton, nodup_append]
    refine ⟨h.slot_nodup, nodup_singleton _, fun x hx y hy => ?_⟩
    obtain ⟨t, ht, rfl⟩ := mem_map.1 hx
    rw [mem_singleton.1 hy]
    exact (h.slot_lt t ht).ne
  · intro t ht
    rw [hactive, mem_append, mem_singleton] at ht
    rw [hnext]
    rcases ht with ht | rfl
    · exact (h.slot_lt t ht).trans (Nat.lt_succ_self _)
    · exact Nat.lt_succ_self _
  · intro t ht node
    rw [hactive, mem_append, mem_singleton] at ht
    rw [hstored]
    rcases ht with ht | rfl
    · exact h.slot_free t ht node
    · exact fun hnode => (h.stored_lt _ _ hnode).false
  · intro slot node hnode
    rw [hnext]
    exact (h.stored_lt slot node ((hstored _ _).1 hnode)).trans (Nat.lt_succ_self _)
  · intro d hd
    rw [hactive, hidentity]
    rcases mem_visited_discover.1 hd with hd | rfl
    · refine (h.visited d hd).imp_left ?_
      rintro ⟨t, ht, rfl⟩
      exact ⟨t, mem_append_left _ ht, rfl⟩
    · exact .inl ⟨(s.nextSlot, edge), by simp, rfl⟩
  · exact fun e he => mem_visited_discover.2 (.inl (h.frontier e he))
  · rw [hidentity]
    exact h.identity
  · intro slot node hnode
    obtain ⟨hd, hedges⟩ := h.stored slot node ((hstored _ _).1 hnode)
    exact ⟨hd, fun e he => mem_visited_discover.2 (.inl (hedges e he))⟩
  · intro k hk
    have hk' : k ∈ s.resolvedSeen := by rwa [hs] at hk
    obtain ⟨slot, node, hnode, heq⟩ := h.seen k hk'
    exact ⟨slot, node, (hstored _ _).2 hnode, heq⟩

theorem mem_visited_foldl_discover {edges : List ClosureEdge} :
    d ∈ (edges.foldl discover s).visited ↔
      d ∈ s.visited ∨ ∃ e ∈ edges, e.identifier.stripAdvisory = d := by
  induction edges generalizing s with
  | nil => simp
  | cons e edges ih =>
    rw [foldl_cons, ih, mem_visited_discover, or_assoc]
    simp [eq_comm]

theorem GatherInv.foldl_discover (h : GatherInv c F s) (edges : List ClosureEdge) :
    GatherInv c F (edges.foldl GatherState.discover s) :=
  foldlRecOn edges _ h fun _ hs e _ => hs.discover e

theorem foldl_discover_frame (edges : List ClosureEdge) :
    (edges.foldl discover s).tasks = s.tasks ∧
    (edges.foldl discover s).slots = s.slots ∧
    (edges.foldl discover s).resolvedIdentity = s.resolvedIdentity ∧
    (edges.foldl discover s).resolvedSeen = s.resolvedSeen ∧
    s.nextSlot ≤ (edges.foldl discover s).nextSlot ∧
    ∀ t ∈ (edges.foldl discover s).pending, t ∈ s.pending ∨ s.nextSlot ≤ t.1 := by
  induction edges generalizing s with
  | nil => exact ⟨rfl, rfl, rfl, rfl, le_rfl, fun _ ht => .inl ht⟩
  | cons e edges ih =>
    obtain ⟨htasks, hslots, hidentity, hseen, hnext, hpending⟩ := ih (s := s.discover e)
    rw [foldl_cons]
    by_cases hmem : e.identifier.stripAdvisory ∈ s.visited
    · have hs : s.discover e = s := if_pos hmem
      rw [hs] at htasks hslots hidentity hseen hnext hpending ⊢
      exact ⟨htasks, hslots, hidentity, hseen, hnext, hpending⟩
    · rw [discover_of_notMem hmem] at htasks hslots hidentity hseen hnext hpending ⊢
      refine ⟨htasks, hslots, hidentity, hseen, (Nat.le_succ _).trans hnext, fun t ht => ?_⟩
      rcases hpending t ht with ht | ht
      · rcases mem_append.1 ht with ht | ht
        · exact .inl ht
        · rw [mem_singleton.1 ht]
          exact .inr le_rfl
      · exact .inr ((Nat.le_succ _).trans ht)

theorem stored_store {slot slot' : ℕ} {node node' : GatheredClosureNode} :
    (s.store slot node).Stored slot' node' ↔
      (slot' = slot ∧ node' = node) ∨ (slot' ≠ slot ∧ s.Stored slot' node') := by
  rw [GatherState.Stored, store, getElem?_set]
  by_cases heq : slot = slot'
  · subst heq
    have hlt : slot < (s.slots ++ replicate (slot + 1 - s.slots.length) none).length := by
      rw [length_append, length_replicate]
      omega
    rw [if_pos rfl, if_pos hlt]
    simp [eq_comm]
  · rw [if_neg heq, getElem?_append, GatherState.Stored]
    split_ifs with hlt
    · simp [Ne.symm heq]
    · rw [getElem?_replicate, getElem?_eq_none (not_lt.1 hlt)]
      split_ifs <;> simp [Ne.symm heq]

theorem active_launch : s.launch.active = s.active := by
  simp [active, launch, append_assoc, take_append_drop]

theorem GatherInv.launch (h : GatherInv c F s) : GatherInv c F s.launch := by
  obtain ⟨h₁, h₂, h₃, h₄, h₅, h₆, h₇, h₈, h₉⟩ := h
  rw [← active_launch] at h₁ h₂ h₃ h₅
  exact ⟨h₁, h₂, h₃, h₄, h₅, h₆, h₇, h₈, h₉⟩

/-- Every resolved identity was stored. -/
def GatherState.Noted (s : GatherState) : Prop := ∀ x ∈ s.resolvedIdentity, x.2 ∈ s.resolvedSeen

theorem GatherInv.finish (h : GatherInv c F s) (htasks : s.tasks = before ++ task :: after) :
    GatherInv c F { s with
      tasks := before ++ after
      resolvedIdentity := s.resolvedIdentity ++ [(task.2.identifier.stripAdvisory,
        (c.resolved task.2.identifier).stripAdvisory)] } := by
  have hactive : s.active = before ++ task :: (after ++ s.pending) := by
    simp [active, htasks]
  have hsub : ((before ++ after) ++ s.pending).Sublist s.active := by
    rw [hactive, append_assoc]
    exact (List.Sublist.refl _).append (sublist_cons_self _ _)
  refine ⟨h.slot_nodup.sublist (hsub.map _), fun t ht => h.slot_lt t (hsub.subset ht),
    fun t ht => h.slot_free t (hsub.subset ht), h.stored_lt, fun d hd => ?_, h.frontier, ?_,
    h.stored, h.seen⟩
  · rcases h.visited d hd with ⟨t, ht, rfl⟩ | ⟨k, hk⟩
    · rw [hactive, mem_append, mem_cons] at ht
      rcases ht with ht | rfl | ht
      · exact .inl ⟨t, by simp [active, ht], rfl⟩
      · exact .inr ⟨_, mem_append_right _ (mem_singleton.2 rfl)⟩
      · refine .inl ⟨t, ?_, rfl⟩
        show t ∈ before ++ after ++ s.pending
        rw [append_assoc]
        exact mem_append_right _ ht
    · exact .inr ⟨k, mem_append_left _ hk⟩
  · exact forall_mem_append.2 ⟨h.identity, by simpa using (c.resolved_strip _).symm⟩

theorem GatherInv.store (h : GatherInv c F s) {slot : ℕ}
    (hlt : slot < s.nextSlot) (hfree : ∀ node, ¬ s.Stored slot node)
    (hactive : ∀ t ∈ s.active, t.1 ≠ slot)
    (hedges : ∀ e ∈ (c.fetchClosureNode d).edges, e.identifier.stripAdvisory ∈ s.visited) :
    GatherInv c F (store { s with
      resolvedSeen := (c.resolved d).stripAdvisory :: s.resolvedSeen } slot
        (c.fetchClosureNode d)) := by
  refine ⟨h.slot_nodup, h.slot_lt, fun t ht node hnode => ?_, fun slot' node hnode => ?_,
    h.visited, h.frontier, h.identity, fun slot' node hnode => ?_, fun k hk => ?_⟩
  · rcases stored_store.1 hnode with ⟨heq, -⟩ | ⟨-, hnode⟩
    · exact hactive t ht heq
    · exact h.slot_free t ht node hnode
  · rcases stored_store.1 hnode with ⟨rfl, -⟩ | ⟨-, hnode⟩
    · exact hlt
    · exact h.stored_lt slot' node hnode
  · rcases stored_store.1 hnode with ⟨-, rfl⟩ | ⟨-, hnode⟩
    · exact ⟨⟨d, rfl⟩, hedges⟩
    · exact h.stored slot' node hnode
  · rcases mem_cons.1 hk with rfl | hk
    · exact ⟨slot, _, stored_store.2 (.inl ⟨rfl, rfl⟩), rfl⟩
    · obtain ⟨slot', node, hnode, heq⟩ := h.seen k hk
      refine ⟨slot', node, stored_store.2 (.inr ⟨?_, hnode⟩), heq⟩
      rintro rfl
      exact hfree node hnode

/-- **Taking in a fetched node** keeps the invariant. -/
theorem GatherInv.join (h : GatherInv c F s) (hnoted : s.Noted)
    (htasks : s.tasks = before ++ task :: after) :
    GatherInv c F (({ s with tasks := before ++ after } : GatherState).join task.1
      task.2.identifier (c.fetchClosureNode task.2.identifier)) ∧
    (({ s with tasks := before ++ after } : GatherState).join task.1
      task.2.identifier (c.fetchClosureNode task.2.identifier)).Noted := by
  have hmem : task ∈ s.active := by simp [GatherState.active, htasks]
  set s₀ : GatherState := { s with
    tasks := before ++ after
    resolvedIdentity := s.resolvedIdentity ++ [(task.2.identifier.stripAdvisory,
      (c.resolved task.2.identifier).stripAdvisory)] } with hs₀
  set edges := (c.fetchClosureNode task.2.identifier).edges with hedges
  have hinv : GatherInv c F (edges.foldl GatherState.discover s₀) :=
    (h.finish htasks).foldl_discover edges
  obtain ⟨ft, fslots, fidentity, fseen, fnext, fpending⟩ := foldl_discover_frame edges (s := s₀)
  have hidentity : ∀ x ∈ (edges.foldl GatherState.discover s₀).resolvedIdentity,
      x.2 ∈ s.resolvedSeen ∨ x.2 = (c.resolved task.2.identifier).stripAdvisory := by
    intro x hx
    rw [fidentity] at hx
    rcases mem_append.1 hx with hx | hx
    · exact .inl (hnoted x hx)
    · rw [mem_singleton.1 hx]
      exact .inr rfl
  rw [GatherState.join]
  split_ifs with hseen
  · refine ⟨hinv, fun x hx => (hidentity x hx).elim (fun hx => ?_) fun heq => heq ▸ hseen⟩
    show x.2 ∈ (edges.foldl GatherState.discover s₀).resolvedSeen
    rwa [fseen]
  · refine ⟨hinv.store ((h.slot_lt task hmem).trans_le fnext) ?_ ?_ ?_, fun x hx => ?_⟩
    · intro node hnode
      rw [GatherState.Stored, fslots] at hnode
      exact h.slot_free task hmem node hnode
    · -- the slot of the task is neither that of another edge nor a new one
      have hnodup := h.slot_nodup
      rw [GatherState.active, htasks, append_assoc, cons_append, map_append,
        map_cons, nodup_middle, nodup_cons, ← map_append] at hnodup
      intro t ht heq
      have hother : t ∉ before ++ (after ++ s.pending) := fun ht' =>
        hnodup.1 (mem_map.2 ⟨t, ht', heq⟩)
      rw [← append_assoc, mem_append, not_or] at hother
      rw [GatherState.active, ft, mem_append] at ht
      rcases ht with ht | ht
      · exact hother.1 ht
      · rcases fpending t ht with ht | hge
        · exact hother.2 ht
        · exact absurd (h.slot_lt task hmem) (heq ▸ not_lt.2 hge)
    · intro e he
      exact mem_visited_foldl_discover.2 (.inr ⟨e, he, rfl⟩)
    · show x.2 ∈ _ :: (edges.foldl GatherState.discover s₀).resolvedSeen
      rw [fseen, mem_cons]
      exact (hidentity x hx).symm

theorem pending_launch (h : s.launch.tasks = []) : s.launch.pending = [] := by
  obtain ⟨htasks, htake⟩ := append_eq_nil_iff.1 h
  show s.pending.drop (closureFetchConcurrency - s.tasks.length) = []
  rw [htasks] at htake ⊢
  rcases take_eq_nil_iff.1 htake with hzero | hnil
  · simp [closureFetchConcurrency] at hzero
  · simp [hnil]

theorem gatherInv_start (c : Catalog) (F : List ClosureEdge) :
    GatherInv c F (GatherState.start F) ∧ (GatherState.start F).Noted := by
  have hempty : GatherInv c [] ⟨[], [], [], 0, [], [], []⟩ := by
    constructor <;> simp [GatherState.active, GatherState.Stored]
  have hinv := (hempty.foldl_discover F).launch
  obtain ⟨-, -, hidentity, -⟩ := foldl_discover_frame F (s := ⟨[], [], [], 0, [], [], []⟩)
  constructor
  · refine { hinv with frontier := fun e he => ?_ }
    exact mem_visited_foldl_discover.2 (.inr ⟨e, he, rfl⟩)
  · intro x hx
    have hx' : x ∈ (F.foldl discover ⟨[], [], [], 0, [], [], []⟩).resolvedIdentity := hx
    rw [hidentity] at hx'
    simp at hx'

end Inv

/-- What the result of a gather provides for a frontier. -/
structure Covered (c : Catalog) (frontier : List ClosureEdge) (gathered : List GatheredClosureNode)
    (identity : List (PinnedPackageRef × PinnedPackageRef)) : Prop where
  /-- Resolved identities are those of the catalog. -/
  resolved : ∀ x ∈ identity, x.2 = (c.resolved x.1).stripAdvisory
  /-- The frontier has resolved identities. -/
  frontier : ∀ e ∈ frontier, ∃ k, (e.identifier.stripAdvisory, k) ∈ identity
  /-- Resolved identities are gathered. -/
  node : ∀ x ∈ identity, ∃ node ∈ gathered, node.identifier.stripAdvisory = x.2
  /-- Gathered nodes come from the catalog. -/
  entry : ∀ node ∈ gathered, ∃ d, node = c.fetchClosureNode d
  edges : ∀ node ∈ gathered, ∀ e ∈ node.edges, ∃ k, (e.identifier.stripAdvisory, k) ∈ identity

theorem GatherInv.covered {c : Catalog} {F : List ClosureEdge} {s : GatherState}
    (h : GatherInv c F s) (hnoted : s.Noted) (htasks : s.tasks = []) (hpending : s.pending = []) :
    Covered c F (s.slots.filterMap id) s.resolvedIdentity := by
  have hvisited : ∀ d ∈ s.visited, ∃ k, (d, k) ∈ s.resolvedIdentity := fun d hd =>
    (h.visited d hd).resolve_left (by simp [active, htasks, hpending])
  have hmem : ∀ node, node ∈ s.slots.filterMap id ↔ ∃ slot, s.Stored slot node := by
    intro node
    rw [mem_filterMap]
    simp only [id, exists_eq_right]
    exact mem_iff_getElem?
  refine ⟨h.identity, fun e he => hvisited _ (h.frontier e he), fun x hx => ?_,
    fun node hnode => ?_, fun node hnode e he => ?_⟩
  · obtain ⟨slot, node, hnode, heq⟩ := h.seen _ (hnoted x hx)
    exact ⟨node, (hmem node).2 ⟨slot, hnode⟩, heq⟩
  · obtain ⟨slot, hnode⟩ := (hmem node).1 hnode
    exact (h.stored slot node hnode).1
  · obtain ⟨slot, hnode⟩ := (hmem node).1 hnode
    exact hvisited _ ((h.stored slot node hnode).2 e he)

theorem Catalog.Gathers.covered_of_inv {c : Catalog} {F : List ClosureEdge} {s : GatherState}
    (h : c.Gathers s gathered identity) (hinv : GatherInv c F s) (hnoted : s.Noted)
    (hpending : s.tasks = [] → s.pending = []) : Covered c F gathered identity := by
  induction h with
  | done htasks => exact hinv.covered hnoted htasks (hpending htasks)
  | join htasks _ ih =>
    obtain ⟨hinv', hnoted'⟩ := hinv.join hnoted htasks
    exact ih hinv'.launch hnoted' pending_launch

/-- **Every gather covers the closure**, whatever order the fetches finish in. -/
theorem Catalog.Gathers.covered {c : Catalog} {F : List ClosureEdge}
    (h : c.Gathers (.start F) gathered identity) : Covered c F gathered identity := by
  obtain ⟨hinv, hnoted⟩ := gatherInv_start c F
  exact h.covered_of_inv hinv hnoted pending_launch

/-! ### Every gather ends -/

section Ends

variable {c : Catalog} {root : PinnedPackageRef} {s : GatherState}

/-- The edge is declared by a package of the closure, or by the root. -/
def InClosure (c : Catalog) (root : PinnedPackageRef) (e : ClosureEdge) : Prop :=
  ∃ k ∈ root :: c.graph.closureKeys root, e ∈ closureEdgesFromMetadata (c.metadata k)

/-- The declared references of the closure. -/
def declaredRefs (c : Catalog) (root : PinnedPackageRef) : List PinnedPackageRef :=
  (root :: c.graph.closureKeys root).flatMap fun k =>
    (closureEdgesFromMetadata (c.metadata k)).map (·.identifier.stripAdvisory)

/-- How many fetches are still to come. -/
def GatherState.remaining (s : GatherState) (refs : List PinnedPackageRef) : ℕ :=
  (refs.toFinset \ s.visited.toFinset).card + s.active.length

theorem InClosure.mem_declaredRefs (h : InClosure c root e) :
    e.identifier.stripAdvisory ∈ declaredRefs c root := by
  obtain ⟨k, hk, he⟩ := h
  exact mem_flatMap.2 ⟨k, hk, mem_map.2 ⟨e, he, rfl⟩⟩

theorem InClosure.edges {e' : ClosureEdge} (h : InClosure c root e)
    (he' : e' ∈ (c.fetchClosureNode e.identifier).edges) : InClosure c root e' := by
  obtain ⟨k, hk, he⟩ := h
  obtain ⟨d, hd, rfl⟩ := mem_map.1 he
  refine ⟨(c.resolved d.identifier).stripAdvisory, mem_cons_of_mem _ ?_, he'⟩
  have hdep : (c.resolved d.identifier, d.visibility) ∈ c.graph.deps k :=
    mem_map.2 ⟨d, hd, rfl⟩
  rw [DependencyGraph.mem_closureKeys]
  rcases mem_cons.1 hk with rfl | hk
  · exact ⟨_, .single hdep⟩
  · obtain ⟨edges, hpath⟩ := DependencyGraph.mem_closureKeys.1 hk
    exact ⟨_, hpath.concat hdep⟩

theorem remaining_discover {refs : List PinnedPackageRef}
    (he : e.identifier.stripAdvisory ∈ refs) :
    (s.discover e).remaining refs = s.remaining refs := by
  by_cases hmem : e.identifier.stripAdvisory ∈ s.visited
  · rw [discover, if_pos hmem]
  · have hin : e.identifier.stripAdvisory ∈ refs.toFinset \ s.visited.toFinset := by
      simp [he, hmem]
    have hpos := Finset.card_pos.2 ⟨_, hin⟩
    rw [discover_of_notMem hmem, remaining, remaining, toFinset_cons,
      Finset.sdiff_insert, Finset.card_erase_of_mem hin]
    simp only [active, length_append, length_singleton]
    omega

theorem foldl_discover_inClosure {edges : List ClosureEdge}
    (hedges : ∀ e ∈ edges, InClosure c root e) (h : ∀ t ∈ s.active, InClosure c root t.2) :
    (edges.foldl discover s).remaining (declaredRefs c root) =
        s.remaining (declaredRefs c root) ∧
      ∀ t ∈ (edges.foldl discover s).active, InClosure c root t.2 := by
  induction edges generalizing s with
  | nil => exact ⟨rfl, h⟩
  | cons e edges ih =>
    rw [forall_mem_cons] at hedges
    have hremaining := remaining_discover (s := s) hedges.1.mem_declaredRefs
    rw [foldl_cons, ← hremaining]
    refine ih hedges.2 fun t ht => ?_
    rw [discover] at ht
    split_ifs at ht
    · exact h t ht
    · rw [active, ← append_assoc, mem_append, mem_singleton] at ht
      rcases ht with ht | rfl
      · exact h t ht
      · exact hedges.1

theorem remaining_join
    (htasks : s.tasks = before ++ task :: after) (h : ∀ t ∈ s.active, InClosure c root t.2) :
    (({ s with tasks := before ++ after } : GatherState).join task.1 task.2.identifier
      (c.fetchClosureNode task.2.identifier)).remaining (declaredRefs c root) <
        s.remaining (declaredRefs c root) ∧
    ∀ t ∈ (({ s with tasks := before ++ after } : GatherState).join task.1 task.2.identifier
      (c.fetchClosureNode task.2.identifier)).active, InClosure c root t.2 := by
  have hactive : s.active = before ++ task :: (after ++ s.pending) := by
    simp [active, htasks]
  set s₀ : GatherState := { s with
    tasks := before ++ after
    resolvedIdentity := s.resolvedIdentity ++ [(task.2.identifier.stripAdvisory,
      (c.fetchClosureNode task.2.identifier).identifier.stripAdvisory)] }
  have hactive₀ : s₀.active = before ++ (after ++ s.pending) := append_assoc _ _ _
  have hedges : ∀ e ∈ (c.fetchClosureNode task.2.identifier).edges, InClosure c root e :=
    fun e he => (h task (by simp [hactive])).edges he
  have hold : ∀ t ∈ s₀.active, InClosure c root t.2 := by
    intro t ht
    rw [hactive₀] at ht
    refine h t ?_
    rw [hactive]
    exact ((List.Sublist.refl _).append (sublist_cons_self _ _)).subset ht
  obtain ⟨hremaining, hclosure⟩ := foldl_discover_inClosure hedges hold
  have hless : s₀.remaining (declaredRefs c root) < s.remaining (declaredRefs c root) := by
    rw [remaining, remaining, hactive, hactive₀]
    simp only [length_append, length_cons]
    show (_ \ s.visited.toFinset).card + _ < _
    omega
  -- storing the node changes neither what is discovered nor what is active
  rw [join]
  split_ifs
  · exact ⟨hremaining.trans_lt hless, hclosure⟩
  · exact ⟨hremaining.trans_lt hless, hclosure⟩

theorem exists_gathers_of_remaining (root : PinnedPackageRef) (n : ℕ)
    (hn : s.remaining (declaredRefs c root) ≤ n)
    (h : ∀ t ∈ s.active, InClosure c root t.2) :
    ∃ gathered identity, c.Gathers s gathered identity := by
  induction n generalizing s with
  | zero =>
    have hactive : s.active = [] := eq_nil_of_length_eq_zero (by
      rw [remaining] at hn
      omega)
    exact ⟨_, _, .done (append_eq_nil_iff.1 hactive).1⟩
  | succ n ih =>
    cases htasks : s.tasks with
    | nil => exact ⟨_, _, .done htasks⟩
    | cons task tasks =>
      have hsplit : s.tasks = [] ++ task :: tasks := htasks
      obtain ⟨hless, hclosure⟩ := remaining_join hsplit h
      obtain ⟨gathered, identity, hgathers⟩ := ih (s := launch _)
        (by
          have hadmit := hless.trans_le hn
          rw [remaining] at hadmit ⊢
          rw [active_launch]
          exact Nat.le_of_lt_succ hadmit)
        (by rwa [active_launch])
      exact ⟨gathered, identity, .join hsplit hgathers⟩

/-- **Every gather ends.** -/
theorem Catalog.exists_gathers (c : Catalog) (root : PinnedPackageRef) :
    ∃ gathered identity,
      c.Gathers (.start (closureEdgesFromMetadata (c.metadata root))) gathered identity := by
  refine exists_gathers_of_remaining root _ le_rfl ?_
  rw [start, active_launch]
  exact (foldl_discover_inClosure (fun e he => ⟨root, mem_cons_self, he⟩)
    (by simp [active])).2

end Ends

end Ocx
