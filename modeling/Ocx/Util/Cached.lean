import Mathlib

/-!
# Verdicts that the first request decides

Requests name a key, and may insist on it.  The verdict on a key is found when it is requested for
the first time, with or without insistence, and kept.  The sequence of requests fails at a request
that insists on a key with a bad verdict.
-/

namespace Ocx

variable {κ : Type*} [DecidableEq κ] (verdict : κ → Bool → Bool)

/-- A request: a key, and whether the request insists on it. -/
def cachedStep (cache : κ → Option Bool) (request : κ × Bool) : Option (κ → Option Bool) :=
  let found := (cache request.1).getD (verdict request.1 request.2)
  if request.2 && !found then none
  else some (Function.update cache request.1 (some found))

/-- The verdict that the cache holds on a key, or that its first request finds. -/
def firstVerdict (cache : κ → Option Bool) (requests : List (κ × Bool)) (k : κ) : Option Bool :=
  (cache k).or (((requests.find? fun r => r.1 = k)).map fun r => verdict k r.2)

theorem firstVerdict_cons (cache : κ → Option Bool) (request : κ × Bool)
    (requests : List (κ × Bool)) (k : κ) :
    firstVerdict verdict cache (request :: requests) k =
      firstVerdict verdict (Function.update cache request.1
        (some ((cache request.1).getD (verdict request.1 request.2)))) requests k := by
  by_cases hk : request.1 = k
  · subst hk
    cases h : cache request.1 <;> simp [firstVerdict, h]
  · have hk' : k ≠ request.1 := Ne.symm hk
    simp [firstVerdict, hk, hk']

/-- **Requests with a cache.** A sequence of requests fails exactly if it insists on a key whose
first request found a bad verdict. -/
theorem foldlM_cachedStep_eq_none_iff (cache : κ → Option Bool) (requests : List (κ × Bool)) :
    requests.foldlM (cachedStep verdict) cache = none ↔
      ∃ r ∈ requests, r.2 = true ∧ firstVerdict verdict cache requests r.1 = some false := by
  induction requests generalizing cache with
  | nil => simp
  | cons request requests ih =>
    have hhead : firstVerdict verdict cache (request :: requests) request.1 =
        some ((cache request.1).getD (verdict request.1 request.2)) := by
      cases h : cache request.1 <;> simp [firstVerdict, h]
    have hsplit : (∃ r ∈ request :: requests, r.2 = true ∧
        firstVerdict verdict cache (request :: requests) r.1 = some false) ↔
          (request.2 = true ∧ (cache request.1).getD (verdict request.1 request.2) = false) ∨
            ∃ r ∈ requests, r.2 = true ∧
              firstVerdict verdict cache (request :: requests) r.1 = some false := by
      simp [List.mem_cons, or_and_right, exists_or, hhead, Option.some.injEq]
    rw [List.foldlM_cons, hsplit, cachedStep]
    simp only [firstVerdict_cons verdict]
    cases hinsist : request.2 with
    | false => simpa [hinsist] using ih _
    | true =>
      cases hfound : (cache request.1).getD (verdict request.1 true) with
      | false => simp
      | true => simpa [hinsist, hfound] using ih _

end Ocx
