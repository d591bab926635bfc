import Ocx.Store.GarbageCollection
import Ocx.Util.Buckets
import Ocx.Util.Schedule

/-!
# Which locks hold an entry

While the graph of a store is built, every entry that a lock pins is attributed to the lock. The
attribution is then carried along the edges by a search over pairs of a node and a lock. The entries
that some lock pins are skipped when the found pairs are written back, since they are attributed
already.

The result is not always what `HeldBy` says. A lock that pins one entry twice is listed twice. An
entry that one lock pins and another lock only reaches is attributed to the first one only. And the
search also finds nodes that are not in the store.
-/

namespace Ocx

open List

/-! ### The attribution -/

/-- The entries a lock pins, where the store has them, each with the lock. -/
def lockPins (fs : FileStructure) (S : Store) (projectRoots : List ProjectRootDigests) :
    List (Path × Path) :=
  projectRoots.flatMap fun project =>
    ((project.digests.flatMap fun pinned => [fs.packagePath pinned, fs.shimPath pinned]).filter
      (· ∈ S.allEntries)).map fun p => (p, project.ocxLockPath)

/-- The number of a lock in the pool, where it is put when it is new. The numbers have 32 bits. -/
def intern (pool : List Path) (lock : Path) : List Path × ℕ :=
  if lock ∈ pool then (pool, pool.idxOf lock % 2 ^ 32)
  else (pool ++ [lock], pool.length % 2 ^ 32)

/-- Number the locks of the seeds. -/
def internSeeds : List Path → List (Path × Path) → List Path × List (Path × ℕ)
  | pool, [] => (pool, [])
  | pool, seed :: seeds =>
    let (pool, id) := intern pool seed.2
    let (pool, rest) := internSeeds pool seeds
    (pool, (seed.1, id) :: rest)

/-- The successors of a node and a lock. -/
def ReachabilityGraph.pairNeighbors (G : ReachabilityGraph) (pair : Path × ℕ) : List (Path × ℕ) :=
  (G.neighbors pair.1).map fun n => (n, pair.2)

/-- The search over pairs of a node and a lock. -/
def ReachabilityGraph.pairSearch (G : ReachabilityGraph) (seeds : List (Path × ℕ)) :
    List (Path × ℕ) :=
  bfs G.pairNeighbors (G.sources.flatMap fun p => seeds.map fun seed => (p, seed.2)) seeds

/-- The entries of an attribution with their locks, one by one. -/
def seedPairs (iterate : ∀ {α : Type} (entries : List α), Completion entries)
    (attribution : List (Path × List Path)) : List (Path × Path) :=
  (iterate attribution).order.flatMap fun e => e.2.map fun lock => (e.1, lock)

/-- What the search found, by node. -/
def foundLocks (found : List (Path × ℕ)) : List (Path × List ℕ) :=
  (found.map Prod.fst).dedup.map fun node => (node, (pushedTo found node).dedup)

/-- What is written back for the nodes that were found. -/
def writeBacks (iterate : ∀ {α : Type} (entries : List α), Completion entries) (pool : List Path)
    (seedRoots : List Path) (found : List (Path × ℕ)) : List (Path × Path) :=
  (iterate (foundLocks found)).order.flatMap fun e =>
    -- the seeds are attributed already
    if e.1 ∈ seedRoots then []
    else (iterate e.2).order.filterMap fun id => (pool[id]?).map fun lock => (e.1, lock)

/-- Carry an attribution along the edges. The entries of a hash map are visited in any order. -/
def propagate (iterate : ∀ {α : Type} (entries : List α), Completion entries)
    (G : ReachabilityGraph) (attribution : List (Path × List Path)) : List (Path × List Path) :=
  if attribution.isEmpty then attribution else
    let (pool, seeds) := internSeeds [] (seedPairs iterate attribution)
    pushAllTo attribution (writeBacks iterate pool (seeds.map Prod.fst) (G.pairSearch seeds))

/-- The attribution of a store: the locks that hold an entry. -/
def rootsAttribution (iterate : ∀ {α : Type} (entries : List α), Completion entries)
    (fs : FileStructure) (view : LinkView) (S : Store) (projectRoots : List ProjectRootDigests) :
    List (Path × List Path) :=
  propagate iterate (ReachabilityGraph.build fs view S projectRoots)
    (pushAllTo [] (lockPins fs S projectRoots))

/-! ### What the attribution is for -/

section Spec

variable (fs : FileStructure) (S : Store) (projectRoots : List ProjectRootDigests)

/-- A lock pins a stored entry. -/
def PinnedBy (lock p : Path) : Prop :=
  p ∈ S.allEntries ∧ ∃ project ∈ projectRoots, project.ocxLockPath = lock ∧
    ∃ pinned ∈ project.digests, p = fs.packagePath pinned ∨ p = fs.shimPath pinned

/-- A lock holds a node: it is reached from an entry that the lock pins. -/
def HeldBy (lock : Path) : Path → Prop := Reach (PinnedBy fs S projectRoots lock) (S.Edge fs)

/-- The attribution has the stored entries that a lock holds, each with the locks that hold it. -/
structure AttributionExact (attribution : List (Path × List Path)) : Prop where
  keys : ∀ p, (∃ locks, lastValue attribution p = some locks) ↔
    p ∈ S.allEntries ∧ ∃ lock, HeldBy fs S projectRoots lock p
  locks : ∀ p locks, lastValue attribution p = some locks →
    locks.Nodup ∧ ∀ lock, lock ∈ locks ↔ HeldBy fs S projectRoots lock p

/-- When the attribution is exact. -/
structure Attributable : Prop where
  once : (lockPins fs S projectRoots).Nodup
  /-- A pinned entry is held by the locks that pin it and by no others. -/
  direct : ∀ p lock lock', PinnedBy fs S projectRoots lock p → HeldBy fs S projectRoots lock' p →
    PinnedBy fs S projectRoots lock' p
  stored : ∀ p lock, HeldBy fs S projectRoots lock p → p ∈ S.allEntries

end Spec

/-! ### Numbering the locks -/

variable {pool : List Path} {lock : Path}

theorem intern_spec (h : pool.Nodup) (lock : Path) :
    (intern pool lock).1.Nodup ∧ pool <+: (intern pool lock).1 ∧
      (intern pool lock).1 ⊆ lock :: pool ∧ ((intern pool lock).1.length ≤ 2 ^ 32 →
        (intern pool lock).1[(intern pool lock).2]? = some lock) := by
  rw [intern]
  split_ifs with hmem
  · refine ⟨h, prefix_rfl, subset_cons_self _ _, fun hbound => ?_⟩
    rw [Nat.mod_eq_of_lt ((idxOf_lt_length_of_mem hmem).trans_le hbound), getElem?_idxOf hmem]
  · refine ⟨nodup_append_comm.1 (nodup_cons.2 ⟨hmem, h⟩), prefix_append _ _, by simp,
      fun hbound => ?_⟩
    rw [length_append, length_singleton] at hbound
    rw [Nat.mod_eq_of_lt (by omega), getElem?_concat_length]

theorem internSeeds_spec (h : pool.Nodup) (seeds : List (Path × Path)) :
    (internSeeds pool seeds).1.Nodup ∧ pool <+: (internSeeds pool seeds).1 ∧
      (internSeeds pool seeds).1 ⊆ pool ++ seeds.map Prod.snd ∧
      ((internSeeds pool seeds).1.length ≤ 2 ^ 32 →
        List.Forall₂ (fun seed numbered => numbered.1 = seed.1 ∧
          (internSeeds pool seeds).1[numbered.2]? = some seed.2) seeds
            (internSeeds pool seeds).2) := by
  induction seeds generalizing pool with
  | nil => exact ⟨h, prefix_rfl, subset_append_left _ _, fun _ => .nil⟩
  | cons seed seeds ih =>
    obtain ⟨hnodup, hgrows, hpool, hlock⟩ := intern_spec h seed.2
    obtain ⟨hnodup', hgrows', hpool', hseeds⟩ := ih hnodup
    refine ⟨hnodup', hgrows.trans hgrows', fun lock hmem => ?_, fun hbound => ?_⟩
    · have hmem' := hpool' hmem
      have hcons := @hpool lock
      simp only [mem_append, mem_cons, map_cons] at hmem' hcons ⊢
      tauto
    · refine .cons ⟨rfl, ?_⟩ (hseeds hbound)
      have hfound := hlock (hgrows'.length_le.trans hbound)
      obtain ⟨added, hadded⟩ := hgrows'
      show (internSeeds (intern pool seed.2).1 seeds).1[(intern pool seed.2).2]? = some seed.2
      rw [← hadded, List.getElem?_append_left (List.getElem?_eq_some_iff.1 hfound).1, hfound]

/-- What the numbered seeds are: the numbers are those of the locks. -/
structure Numbered (pairs : List (Path × Path)) (pool : List Path) (seeds : List (Path × ℕ)) :
    Prop where
  nodup : pool.Nodup
  mem : ∀ p (id : ℕ), (p, id) ∈ seeds ↔ ∃ lock, (p, lock) ∈ pairs ∧ pool[id]? = some lock
  pooled : ∀ p lock, (p, lock) ∈ pairs → ∃ id : ℕ, pool[id]? = some lock

theorem numbered_internSeeds {pairs : List (Path × Path)}
    (hlocks : (pairs.map Prod.snd).dedup.length ≤ 2 ^ 32) :
    Numbered pairs (internSeeds [] pairs).1 (internSeeds [] pairs).2 := by
  obtain ⟨hnodup, -, hpool, hseeds⟩ := internSeeds_spec nodup_nil pairs
  have hsub := hnodup.subperm fun lock h => mem_dedup.2 (hpool h)
  replace hseeds := hseeds (hsub.length_le.trans hlocks)
  have hpooled : ∀ p lock, (p, lock) ∈ pairs → ∃ id, (p, id) ∈ (internSeeds [] pairs).2 ∧
      (internSeeds [] pairs).1[id]? = some lock := by
    intro p lock hpair
    obtain ⟨⟨p', id⟩, hmem, heq, hlock⟩ := exists_of_forall₂ hseeds.flip hpair
    cases heq
    exact ⟨id, hmem, hlock⟩
  refine ⟨hnodup, fun p id => ⟨fun hmem => ?_, ?_⟩, fun p lock hpair => ?_⟩
  · obtain ⟨⟨p', lock⟩, hpair, heq, hlock⟩ := exists_of_forall₂ hseeds hmem
    cases heq
    exact ⟨lock, hpair, hlock⟩
  · rintro ⟨lock, hpair, hlock⟩
    obtain ⟨id', hmem, hlock'⟩ := hpooled p lock hpair
    rwa [(List.getElem?_inj (List.getElem?_eq_some_iff.1 hlock).1 hnodup).1
      (hlock.trans hlock'.symm)]
  · obtain ⟨id, -, hlock⟩ := hpooled p lock hpair
    exact ⟨id, hlock⟩

/-! ### The search -/

section Search

variable {fs : FileStructure} {view : LinkView} {S : Store}
  {projectRoots : List ProjectRootDigests} {pool : List Path} {seeds : List (Path × ℕ)}
  {lock p : Path} {id : ℕ}

theorem mem_lockPins_iff :
    (p, lock) ∈ lockPins fs S projectRoots ↔ PinnedBy fs S projectRoots lock p := by
  simp only [lockPins, PinnedBy, mem_flatMap, mem_map, mem_filter, mem_cons,
    not_mem_nil, or_false, decide_eq_true_eq, Prod.mk.injEq]
  grind

theorem mem_neighbors_reachabilityGraph {q : Path} :
    q ∈ (ReachabilityGraph.build fs view S projectRoots).neighbors p ↔ S.Edge fs p q := by
  have hbuild : q ∈ (GarbageCollector.build fs view S projectRoots ⟨[], []⟩).neighbors p ↔
      S.Edge fs p q := mem_neighbors_build
  exact hbuild

theorem ReachabilityGraph.mem_pairSearch_iff {G : ReachabilityGraph} :
    (p, id) ∈ G.pairSearch seeds ↔
      Reach (fun r => (r, id) ∈ seeds) (fun a b => b ∈ G.neighbors a) p := by
  have hedge : ∀ a b : Path × ℕ,
      b ∈ G.pairNeighbors a ↔ b.2 = a.2 ∧ b.1 ∈ G.neighbors a.1 := by
    rintro ⟨a, la⟩ ⟨b, lb⟩
    simp only [pairNeighbors, mem_map, Prod.mk.injEq]
    constructor
    · rintro ⟨n, hn, rfl, rfl⟩
      exact ⟨rfl, hn⟩
    · rintro ⟨rfl, hb⟩
      exact ⟨b, hb, rfl, rfl⟩
  rw [pairSearch, mem_bfs_iff_of_reach]
  · simp only [hedge]
    exact Reach.labelled_iff (· ∈ seeds) fun a b => b ∈ G.neighbors a
  · rintro ⟨x, l⟩ hreach hsource
    -- a reached pair carries the number of a seed, so its node has no successors
    simp only [hedge] at hreach
    obtain ⟨r, hr, -⟩ :=
      (Reach.labelled_iff (· ∈ seeds) fun a b => b ∈ G.neighbors a).1 hreach
    have hx : x ∉ G.sources := fun hx =>
      hsource (mem_flatMap.2 ⟨x, hx, mem_map.2 ⟨(r, l), hr, rfl⟩⟩)
    rw [pairNeighbors, neighbors_of_notMem_sources G hx, map_nil]

theorem mem_pairSearch_build_iff (hnum : Numbered (lockPins fs S projectRoots) pool seeds) :
    (p, id) ∈ (ReachabilityGraph.build fs view S projectRoots).pairSearch seeds ↔
      ∃ lock, pool[id]? = some lock ∧ HeldBy fs S projectRoots lock p := by
  rw [ReachabilityGraph.mem_pairSearch_iff]
  simp only [mem_neighbors_reachabilityGraph, hnum.mem, mem_lockPins_iff]
  constructor
  · intro h
    have ⟨_, ⟨lock, _, hlock⟩, _⟩ := h
    refine ⟨lock, hlock, h.mono ?_ fun _ _ hab => hab⟩
    rintro r ⟨lock', hpinned, hlock'⟩
    rw [hlock, Option.some.injEq] at hlock'
    exact hlock' ▸ hpinned
  · rintro ⟨lock, hlock, h⟩
    exact h.mono (fun r hr => ⟨lock, hr, hlock⟩) fun _ _ hab => hab

end Search

/-! ### What is written back -/

section WriteBacks

variable {iterate : ∀ {α : Type} (entries : List α), Completion entries}
    {pool seedRoots : List Path}
  {found : List (Path × ℕ)}

theorem mem_foundLocks_iff {e : Path × List ℕ} :
    e ∈ foundLocks found ↔ e.1 ∈ found.map Prod.fst ∧ e.2 = (pushedTo found e.1).dedup := by
  rw [foundLocks, mem_map]
  constructor
  · rintro ⟨node, hnode, rfl⟩
    exact ⟨mem_dedup.1 hnode, rfl⟩
  · rintro ⟨hnode, hids⟩
    exact ⟨e.1, mem_dedup.2 hnode, by rw [← hids]⟩

theorem mem_writeBacks_iff {p : Path} :
    (p, lock) ∈ writeBacks iterate pool seedRoots found ↔
      p ∉ seedRoots ∧ ∃ id : ℕ, (p, id) ∈ found ∧ pool[id]? = some lock := by
  simp only [writeBacks, mem_flatMap, (iterate _).perm.mem_iff, mem_foundLocks_iff]
  constructor
  · rintro ⟨⟨node, ids⟩, ⟨-, hids⟩, hmem⟩
    split_ifs at hmem with hseed
    · simp at hmem
    · rw [mem_filterMap] at hmem
      obtain ⟨id, hid, hlock⟩ := hmem
      obtain ⟨lock', hlock', heq⟩ := Option.map_eq_some_iff.1 hlock
      obtain ⟨rfl, rfl⟩ := Prod.mk.inj heq
      rw [(iterate _).perm.mem_iff] at hid
      have hid' : id ∈ (pushedTo found node).dedup := hids ▸ hid
      exact ⟨hseed, id, mem_pushedTo_iff.1 (mem_dedup.1 hid'), hlock'⟩
  · rintro ⟨hseed, id, hfound, hlock⟩
    refine ⟨(p, (pushedTo found p).dedup), ⟨mem_map.2 ⟨_, hfound, rfl⟩, rfl⟩, ?_⟩
    rw [if_neg hseed, mem_filterMap]
    refine ⟨id, (iterate _).perm.mem_iff.2 ?_, by rw [hlock]; rfl⟩
    exact mem_dedup.2 (mem_pushedTo_iff.2 hfound)

theorem nodup_writeBacks (hpool : pool.Nodup) :
    (writeBacks iterate pool seedRoots found).Nodup := by
  rw [writeBacks, nodup_flatMap]
  constructor
  · intro e he
    split_ifs with hseed
    · exact nodup_nil
    · have hids : e.2.Nodup := by
        rw [(mem_foundLocks_iff.1 ((iterate _).perm.mem_iff.1 he)).2]
        exact nodup_dedup _
      refine ((iterate e.2).perm.nodup_iff.2 hids).filterMap ?_
      intro a a' b hb hb'
      obtain ⟨lock, hlock, rfl⟩ := Option.map_eq_some_iff.1 hb
      obtain ⟨lock', hlock', heq⟩ := Option.map_eq_some_iff.1 hb'
      obtain ⟨-, rfl⟩ := Prod.mk.inj heq
      exact (List.getElem?_inj (List.getElem?_eq_some_iff.1 hlock).1 hpool).1
        (hlock.trans hlock'.symm)
  · -- different entries of the map have different nodes
    have hnodes : ((foundLocks found).map Prod.fst).Nodup := by
      rw [foundLocks, map_map]
      exact (nodup_dedup (found.map Prod.fst)).map fun _ _ h => h
    have horder := ((iterate (foundLocks found)).perm.map Prod.fst).nodup_iff.2 hnodes
    refine (pairwise_map.1 horder).imp ?_
    intro e e' hne
    have hfst : ∀ (e : Path × List ℕ) w, (w ∈ if e.1 ∈ seedRoots then []
        else (iterate e.2).order.filterMap fun id => (pool[id]?).map fun lock => (e.1, lock)) →
        w.1 = e.1 := by
      intro e w hw
      split_ifs at hw
      · simp at hw
      · obtain ⟨id, -, hlock⟩ := mem_filterMap.1 hw
        obtain ⟨lock, -, rfl⟩ := Option.map_eq_some_iff.1 hlock
        rfl
    intro w hw hw'
    exact hne ((hfst e w hw).symm.trans (hfst e' w hw'))

end WriteBacks

/-! ### When the attribution is exact -/

section Exact

variable {iterate : ∀ {α : Type} (entries : List α), Completion entries} {fs : FileStructure}
  {view : LinkView} {S : Store} {projectRoots : List ProjectRootDigests} {p : Path}

theorem lastValue_pins (fs : FileStructure) (S : Store) (projectRoots : List ProjectRootDigests)
    (p : Path) :
    lastValue (pushAllTo [] (lockPins fs S projectRoots)) p =
      if pushedTo (lockPins fs S projectRoots) p = [] then none
      else some (pushedTo (lockPins fs S projectRoots) p) := by
  rw [lastValue_pushAllTo]
  rfl

theorem pushedTo_lockPins_eq_nil_iff :
    pushedTo (lockPins fs S projectRoots) p = [] ↔
      ∀ lock, ¬PinnedBy fs S projectRoots lock p := by
  simp [eq_nil_iff_forall_not_mem, mem_pushedTo_iff, mem_lockPins_iff]

theorem mem_seedPairs_iff :
    (p, lock) ∈ seedPairs iterate (pushAllTo [] (lockPins fs S projectRoots)) ↔
      (p, lock) ∈ lockPins fs S projectRoots := by
  have hkeys : ((pushAllTo [] (lockPins fs S projectRoots)).map Prod.fst).Nodup :=
    nodup_keys_pushAllTo (m := []) nodup_nil _
  simp only [seedPairs, mem_flatMap, (iterate _).perm.mem_iff, mem_map, Prod.mk.injEq]
  constructor
  · rintro ⟨⟨p', locks⟩, he, lock', hlock, rfl, rfl⟩
    have hvalue := lastValue_of_unique hkeys he
    rw [lastValue_pins] at hvalue
    split_ifs at hvalue
    cases hvalue
    exact mem_pushedTo_iff.1 hlock
  · intro hpin
    have hlock := mem_pushedTo_iff.2 hpin
    have hne : pushedTo (lockPins fs S projectRoots) p ≠ [] := ne_nil_of_mem hlock
    have hvalue : lastValue (pushAllTo [] (lockPins fs S projectRoots)) p =
        some (pushedTo (lockPins fs S projectRoots) p) := by rw [lastValue_pins, if_neg hne]
    exact ⟨_, mem_of_lastValue_eq_some hvalue, lock, hlock, rfl, rfl⟩

variable (hlocks : (projectRoots.map ProjectRootDigests.ocxLockPath).dedup.length ≤ 2 ^ 32)

include hlocks

theorem numbered_seeds :
    Numbered (lockPins fs S projectRoots)
      (internSeeds [] (seedPairs iterate (pushAllTo [] (lockPins fs S projectRoots)))).1
      (internSeeds [] (seedPairs iterate (pushAllTo [] (lockPins fs S projectRoots)))).2 := by
  have hlock : ∀ lock ∈ (seedPairs iterate (pushAllTo [] (lockPins fs S projectRoots))).map
      Prod.snd, lock ∈ projectRoots.map ProjectRootDigests.ocxLockPath := by
    intro lock hmem
    obtain ⟨⟨p, lock⟩, hpair, rfl⟩ := mem_map.1 hmem
    obtain ⟨-, project, hproject, rfl, -⟩ := mem_lockPins_iff.1 (mem_seedPairs_iff.1 hpair)
    exact mem_map_of_mem hproject
  have hsub := (nodup_dedup _).subperm fun lock h => mem_dedup.2 (hlock lock (mem_dedup.1 h))
  have hnum := numbered_internSeeds (hsub.length_le.trans hlocks)
  refine ⟨hnum.nodup, fun p id => ?_, fun p lock hpin => hnum.pooled p lock ?_⟩
  · simpa only [mem_seedPairs_iff] using hnum.mem p id
  · exact mem_seedPairs_iff.2 hpin

omit hlocks in
theorem mem_writeBacks_build_iff {seeds : List (Path × ℕ)}
    (hnum : Numbered (lockPins fs S projectRoots) pool seeds) :
    (p, lock) ∈ writeBacks iterate pool (seeds.map Prod.fst)
        ((ReachabilityGraph.build fs view S projectRoots).pairSearch seeds) ↔
      (∀ lock', ¬PinnedBy fs S projectRoots lock' p) ∧ HeldBy fs S projectRoots lock p := by
  have hseed : p ∈ seeds.map Prod.fst ↔ ∃ lock', PinnedBy fs S projectRoots lock' p := by
    rw [mem_map]
    constructor
    · rintro ⟨⟨p', id⟩, hmem, rfl⟩
      obtain ⟨lock', hpin, -⟩ := (hnum.mem p' id).1 hmem
      exact ⟨lock', mem_lockPins_iff.1 hpin⟩
    · rintro ⟨lock', hpinned⟩
      have hpin := mem_lockPins_iff.2 hpinned
      obtain ⟨id, hid⟩ := hnum.pooled p lock' hpin
      exact ⟨(p, id), (hnum.mem p id).2 ⟨lock', hpin, hid⟩, rfl⟩
  rw [mem_writeBacks_iff, hseed, not_exists]
  refine and_congr_right fun _ => ?_
  simp only [mem_pairSearch_build_iff hnum]
  constructor
  · rintro ⟨id, ⟨lock', hlock', hheld⟩, hlock⟩
    rw [hlock, Option.some.injEq] at hlock'
    exact hlock' ▸ hheld
  · intro hheld
    have ⟨r, hpinned, _⟩ := hheld
    obtain ⟨id, hid⟩ := hnum.pooled r lock (mem_lockPins_iff.2 hpinned)
    exact ⟨id, ⟨lock, hid, hheld⟩, hid⟩

theorem exists_rootsAttribution_eq
    (iterate : ∀ {α : Type} (entries : List α), Completion entries) (fs : FileStructure)
    (view : LinkView) (S : Store) :
    ∃ back, rootsAttribution iterate fs view S projectRoots =
        pushAllTo (pushAllTo [] (lockPins fs S projectRoots)) back ∧ back.Nodup ∧
      ∀ p lock, (p, lock) ∈ back ↔
        (∀ lock', ¬PinnedBy fs S projectRoots lock' p) ∧ HeldBy fs S projectRoots lock p := by
  rw [rootsAttribution, propagate]
  split_ifs with hempty
  · refine ⟨[], rfl, nodup_nil, fun p lock => ?_⟩
    have hnone : ∀ lock' p', ¬PinnedBy fs S projectRoots lock' p' := by
      intro lock' p' hpinned
      have hvalue := lastValue_pins fs S projectRoots p'
      rw [isEmpty_iff.1 hempty, lastValue_nil] at hvalue
      have hnil : pushedTo (lockPins fs S projectRoots) p' = [] := by
        by_contra hne
        rw [if_neg hne] at hvalue
        cases hvalue
      exact pushedTo_lockPins_eq_nil_iff.1 hnil lock' hpinned
    constructor
    · intro hmem
      cases hmem
    · rintro ⟨-, r, hr, -⟩
      exact absurd hr (hnone lock r)
  · exact ⟨_, rfl, nodup_writeBacks (numbered_seeds hlocks).nodup,
      fun p lock => mem_writeBacks_build_iff (numbered_seeds hlocks)⟩

theorem lastValue_rootsAttribution_of_pinned (hpinned : PinnedBy fs S projectRoots lock p) :
    lastValue (rootsAttribution iterate fs view S projectRoots) p =
      some (pushedTo (lockPins fs S projectRoots) p) := by
  obtain ⟨back, heq, -, hback⟩ := exists_rootsAttribution_eq hlocks iterate fs view S
  have hnothing : pushedTo back p = [] := by
    refine eq_nil_iff_forall_not_mem.2 fun lock' hmem => ?_
    exact ((hback p lock').1 (mem_pushedTo_iff.1 hmem)).1 lock hpinned
  have hpins : pushedTo (lockPins fs S projectRoots) p ≠ [] := fun hnil =>
    pushedTo_lockPins_eq_nil_iff.1 hnil lock hpinned
  rw [heq, lastValue_pushAllTo, if_pos hnothing, lastValue_pins, if_neg hpins]

theorem lastValue_rootsAttribution_of_not_pinned
    (hnot : ∀ lock, ¬PinnedBy fs S projectRoots lock p) :
    ((∃ locks, lastValue (rootsAttribution iterate fs view S projectRoots) p = some locks) ↔
        ∃ lock, HeldBy fs S projectRoots lock p) ∧
      ∀ locks, lastValue (rootsAttribution iterate fs view S projectRoots) p = some locks →
        locks.Nodup ∧ ∀ lock, lock ∈ locks ↔ HeldBy fs S projectRoots lock p := by
  obtain ⟨back, heq, hnodup, hback⟩ := exists_rootsAttribution_eq hlocks iterate fs view S
  have hlocks : ∀ lock, lock ∈ pushedTo back p ↔ HeldBy fs S projectRoots lock p := by
    intro lock
    rw [mem_pushedTo_iff, hback]
    exact and_iff_right hnot
  have hvalue : lastValue (rootsAttribution iterate fs view S projectRoots) p =
      if pushedTo back p = [] then none else some (pushedTo back p) := by
    rw [heq, lastValue_pushAllTo, lastValue_pins,
      if_pos (pushedTo_lockPins_eq_nil_iff.2 hnot)]
    rfl
  rw [hvalue]
  constructor
  · simp only [← hlocks]
    split_ifs with hnil
    · simp [hnil]
    · exact ⟨fun _ => exists_mem_of_ne_nil _ hnil, fun _ => ⟨_, rfl⟩⟩
  · intro locks hsome
    split_ifs at hsome
    cases hsome
    exact ⟨nodup_iff_pushedTo.1 hnodup p, hlocks⟩

omit hlocks in
theorem heldBy_of_pinnedBy (h : PinnedBy fs S projectRoots lock p) :
    HeldBy fs S projectRoots lock p :=
  .of_root h

theorem attributable_of_exact
    (h : AttributionExact fs S projectRoots (rootsAttribution iterate fs view S projectRoots)) :
    Attributable fs S projectRoots where
  once := by
    rw [nodup_iff_pushedTo]
    intro p
    by_cases hnil : pushedTo (lockPins fs S projectRoots) p = []
    · rw [hnil]
      exact nodup_nil
    · rw [pushedTo_lockPins_eq_nil_iff] at hnil
      push Not at hnil
      obtain ⟨lock, hpinned⟩ := hnil
      exact (h.locks p _ (lastValue_rootsAttribution_of_pinned hlocks hpinned)).1
  direct p lock lock' hpinned hheld := by
    have hlisted := (h.locks p _ (lastValue_rootsAttribution_of_pinned hlocks hpinned)).2 lock'
    exact mem_lockPins_iff.1 (mem_pushedTo_iff.1 (hlisted.2 hheld))
  stored p lock hheld := by
    by_cases hpinned : ∃ lock', PinnedBy fs S projectRoots lock' p
    · obtain ⟨lock', hpinned⟩ := hpinned
      exact hpinned.1
    · rw [not_exists] at hpinned
      refine ((h.keys p).1 ?_).1
      exact (lastValue_rootsAttribution_of_not_pinned hlocks hpinned).1.2 ⟨lock, hheld⟩

theorem exact_of_attributable (h : Attributable fs S projectRoots) :
    AttributionExact fs S projectRoots (rootsAttribution iterate fs view S projectRoots) where
  keys p := by
    by_cases hpinned : ∃ lock, PinnedBy fs S projectRoots lock p
    · obtain ⟨lock, hpinned⟩ := hpinned
      exact iff_of_true ⟨_, lastValue_rootsAttribution_of_pinned hlocks hpinned⟩
        ⟨hpinned.1, lock, heldBy_of_pinnedBy hpinned⟩
    · rw [not_exists] at hpinned
      rw [(lastValue_rootsAttribution_of_not_pinned hlocks hpinned).1]
      constructor
      · rintro ⟨lock, hheld⟩
        exact ⟨h.stored p lock hheld, lock, hheld⟩
      · exact fun hheld => hheld.2
  locks p locks hvalue := by
    by_cases hpinned : ∃ lock, PinnedBy fs S projectRoots lock p
    · obtain ⟨lock, hpinned⟩ := hpinned
      rw [lastValue_rootsAttribution_of_pinned hlocks hpinned, Option.some.injEq] at hvalue
      subst hvalue
      refine ⟨nodup_iff_pushedTo.1 h.once p, fun lock' => ?_⟩
      rw [mem_pushedTo_iff, mem_lockPins_iff]
      exact ⟨heldBy_of_pinnedBy, h.direct p lock lock' hpinned⟩
    · rw [not_exists] at hpinned
      exact (lastValue_rootsAttribution_of_not_pinned hlocks hpinned).2 locks hvalue

end Exact

/-- **The attribution is exact exactly if the store is attributable**, in whatever order the hash
maps are visited, as long as the numbers of the locks do not wrap. -/
theorem attributionExact_iff (iterate : ∀ {α : Type} (entries : List α), Completion entries)
    (fs : FileStructure) (view : LinkView) (S : Store) (projectRoots : List ProjectRootDigests)
    (hlocks : (projectRoots.map ProjectRootDigests.ocxLockPath).dedup.length ≤ 2 ^ 32) :
    AttributionExact fs S projectRoots (rootsAttribution iterate fs view S projectRoots) ↔
      Attributable fs S projectRoots :=
  ⟨attributable_of_exact hlocks, exact_of_attributable hlocks⟩

/-- A package that depends on a library. -/
def appRef : PinnedPackageRef :=
  ⟨⟨"ghcr.io", "app", none,
    some ⟨.sha256, "4e07408562bedb8b60ce05c1decfe3ad16b72230967de01f640b7e4729b49fce"⟩⟩, rfl⟩

/-- The library. -/
def libRef : PinnedPackageRef :=
  ⟨⟨"ghcr.io", "lib", none,
    some ⟨.sha256, "4b227777d4dd1fc61c6f884f48641d02b4d121d3fd328cb08b5531fcacdabf8a"⟩⟩, rfl⟩

/-- The package, with its dependency. -/
def appPackage : PackageDir where
  dir := sampleTiers.packagePath appRef
  symlinks := []
  deps := [⟨"lib", some (sampleTiers.packagePath libRef ++ ["content"])⟩]
  layers := []
  blobs := []

/-- A store with the package and the library. -/
def appStore : Store where
  packages := [appPackage, ⟨sampleTiers.packagePath libRef, [], [], [], []⟩]
  layers := []
  blobs := []
  shims := []
  distinct := by decide

/-- One project uses the package, another one the library. -/
def appProjects : List ProjectRootDigests :=
  [⟨["work", "app", "ocx.lock"], [appRef]⟩, ⟨["work", "lib", "ocx.lock"], [libRef]⟩]

/-- With the first project alone, the library that it reaches is attributed to it. -/
theorem attributionExact_iff_app :
    AttributionExact sampleTiers appStore (appProjects.take 1)
      (rootsAttribution (fun l => .inOrder l) sampleTiers (fun _ => none) appStore
        (appProjects.take 1)) := by
  have hlock : ∀ lock p, PinnedBy sampleTiers appStore (appProjects.take 1) lock p →
      lock = ["work", "app", "ocx.lock"] := by
    rintro lock p ⟨-, project, hproject, rfl, -⟩
    obtain rfl : project = ⟨["work", "app", "ocx.lock"], [appRef]⟩ := by
      simpa [appProjects] using hproject
    rfl
  refine (attributionExact_iff _ _ _ _ _ (by decide)).2 ⟨by decide +kernel, ?_, ?_⟩
  · rintro p lock lock' hpinned ⟨r, hr, -⟩
    rwa [hlock lock' r hr, ← hlock lock p hpinned]
  · rintro p lock ⟨r, hr, hreach⟩
    cases hreach with
    | refl => exact hr.1
    | tail _ hedge =>
      -- the only references of the store lead to the library
      have hrefs : ∀ pkg ∈ appStore.packages, ∀ q ∈ pkg.refs sampleTiers,
          q ∈ appStore.allEntries := by decide +kernel
      cases hedge with
      | package pkg hpkg q hq => exact hrefs pkg hpkg p hq
      | shim shim hshim q hq => cases hshim
      | index blob hblob child hchild => cases hblob

/-- The library is held by both projects and attributed to one of them. -/
theorem appStore_misattributed :
    lastValue (rootsAttribution (fun l => .inOrder l) sampleTiers (fun _ => none) appStore
      appProjects) (sampleTiers.packagePath libRef) = some [["work", "lib", "ocx.lock"]] ∧
    HeldBy sampleTiers appStore appProjects ["work", "app", "ocx.lock"]
      (sampleTiers.packagePath libRef) ∧
    ¬AttributionExact sampleTiers appStore appProjects
      (rootsAttribution (fun l => .inOrder l) sampleTiers (fun _ => none) appStore
        appProjects) := by
  have hvalue : lastValue (rootsAttribution (fun l => .inOrder l) sampleTiers (fun _ => none)
      appStore appProjects) (sampleTiers.packagePath libRef) =
        some [["work", "lib", "ocx.lock"]] := by decide +kernel
  have hpinned : PinnedBy sampleTiers appStore appProjects ["work", "app", "ocx.lock"]
      (sampleTiers.packagePath appRef) :=
    ⟨by decide, _, mem_cons_self, rfl, appRef, mem_cons_self, .inl rfl⟩
  have hedge : appStore.Edge sampleTiers (sampleTiers.packagePath appRef)
      (sampleTiers.packagePath libRef) :=
    .package appPackage mem_cons_self (sampleTiers.packagePath libRef) (by decide +kernel)
  have hheld : HeldBy sampleTiers appStore appProjects ["work", "app", "ocx.lock"]
      (sampleTiers.packagePath libRef) := (heldBy_of_pinnedBy hpinned).step hedge
  refine ⟨hvalue, hheld, fun hexact => ?_⟩
  have hmem := ((hexact.locks _ _ hvalue).2 _).2 hheld
  exact absurd hmem (by decide)

end Ocx
