import Ocx.Store.GarbageCollection
import Ocx.Util.Outcome

/-!
# Purging packages that nothing holds

A purge is given package directories. Those that a root reaches are held and stay; the others are
seeds, and the purge deletes the entries that the seeds reach and the roots do not. The set is a
difference of two searches: from the roots and the seeds, and from the roots that are no seeds.
Since a seed is never reached, no root is a seed, and the second search is the one that decided what
is held.

The roots depend on the locks of all live projects. When one of them cannot be read, nothing is
deleted.
-/

namespace Ocx

open List

variable {seeds targets removed : List Path}

/-! ### The searches -/

section Purge

variable {E Lock : Type}

end Purge

/-! ### What a purge is for -/

open ReachabilityGraph GarbageCollector

/-! ### The searches find what is reached -/

section Searches

variable {canonicalize : Path → Path} {G : ReachabilityGraph} {x : Path}

end Searches

/-! ### The deletion touches its targets only -/

section Deletion

variable {remove : Path → RemoveOutcome}

end Deletion

/-! ### Every purge is exact -/

section Exact

variable {E Lock : Type} {canonicalize : Path → Path} {remove : Path → RemoveOutcome}
  {G : ReachabilityGraph} {paths : List Path}

end Exact

end Ocx
