import Mathlib

/-!
# Shared in-flight work

A group lets one caller per key do the work: the first one leads, the others wait for its value. A
success stays for the lifetime of the group; a failure is retried by the next caller, who replaces
the entry in place while the old waiters still hold the old channel. The map is changed under a
lock; values are sent outside of it.

A run is a list of events: the critical section of a call, a handle that completes, fails or is
dropped, a wait that ends. They come in any order. A value is sent on a channel only while somebody
can receive it.
-/

namespace Ocx.Singleflight

open List Option

variable {K V E : Type}

/-! ### The group -/

/-- Why a call has no value. -/
inductive Error (E : Type)
  | failed (error : E)
  /-- The handle of the leader was dropped without an answer. -/
  | abandoned
  | timeout
  | capacityExceeded (max : ℕ)
deriving DecidableEq

/-- The result of a call: a handle, named by its channel, or a value. -/
inductive Acquisition (V : Type)
  | leader (handle : ℕ)
  | resolved (value : V)
deriving DecidableEq

structure Channel (K V E : Type) where
  /-- The key its leader works for. -/
  key : K
  /-- What was sent. -/
  value : Option (Except (Error E) V)
  /-- The handle still has its sender. -/
  live : Bool

/-- A call of `try_acquire`. -/
structure Call (K V E : Type) where
  key : K
  /-- The channel it waits on, if it came while another call led. -/
  joined : Option ℕ
  /-- What it returned. -/
  result : Option (Except (Error E) (Acquisition V))

/-- What a waiter on this channel returns; nothing while it has to wait. -/
def Channel.answer (ch : Channel K V E) : Option (Except (Error E) (Acquisition V)) :=
  match ch.value with
  | some (.ok value) => some (.ok (.resolved value))
  | some (.error e) => some (.error e)
  | none => if ch.live then none else some (.error .abandoned)

/-- A group, with every channel it made and every call so far. -/
structure Group (K V E : Type) where
  /-- The receivers, by key. -/
  entries : AList fun _ : K => ℕ
  channels : List (Channel K V E)
  calls : List (Call K V E)

namespace Group

def new : Group K V E := ⟨∅, [], []⟩

def push (s : Group K V E) (call : Call K V E) : Group K V E :=
  { s with calls := s.calls ++ [call] }

variable [DecidableEq K]

/-- What the channel registered for a key holds, and which one it is. -/
def existing (s : Group K V E) (key : K) : Option (Option (Except (Error E) V) × ℕ) :=
  (s.entries.lookup key).bind fun c => (s.channels[c]?).map fun ch => (ch.value, c)

/-- Register a key as in-flight. A failed entry is replaced in place. -/
def lead (s : Group K V E) (key : K) : Group K V E :=
  { s with
    entries := s.entries.insert key s.channels.length
    channels := s.channels ++ [⟨key, none, true⟩] }

/-- Lead, and return the handle. -/
def pushLeader (s : Group K V E) (key : K) : Group K V E :=
  (s.lead key).push ⟨key, none, some (.ok (.leader s.channels.length))⟩

/-- The critical section of a call. -/
def tryAcquire (max : ℕ) (s : Group K V E) (key : K) : Group K V E :=
  match s.existing key with
  | some (some (.ok value), _) => s.push ⟨key, none, some (.ok (.resolved value))⟩
  | some (some (.error _), _) => s.pushLeader key
  | some (none, c) => s.push ⟨key, some c, none⟩
  | none =>
    if s.entries.keys.length ≥ max then
      s.push ⟨key, none, some (.error (.capacityExceeded max))⟩
    else s.pushLeader key

/-- Some receiver of the channel is left: the one in the map, or that of a waiting call. -/
def hasReceiver (s : Group K V E) (c : ℕ) : Bool :=
  s.entries.entries.any (fun e => e.2 = c) ||
    s.calls.any fun call => decide (call.joined = some c) && call.result.isNone

/-- End a handle with an answer. Nothing is stored when nobody can receive it. -/
def send (s : Group K V E) (c : ℕ) (answer : Except (Error E) V) : Option (Group K V E) :=
  match s.channels[c]? with
  | some ⟨key, value, true⟩ =>
    some { s with
      channels := s.channels.set c
        ⟨key, if s.hasReceiver c then some answer else value, false⟩ }
  | _ => none

def finish (s : Group K V E) (i : ℕ) (call : Call K V E)
    (result : Except (Error E) (Acquisition V)) : Group K V E :=
  { s with calls := s.calls.set i { call with result := some result } }

/-- A waiter finds an answer. -/
def receive (s : Group K V E) (i : ℕ) : Option (Group K V E) :=
  match s.calls[i]? with
  | some ⟨key, some c, none⟩ =>
    ((s.channels[c]?).bind Channel.answer).map fun r => s.finish i ⟨key, some c, none⟩ r
  | _ => none

/-- A waiter runs out of time. -/
def elapse (s : Group K V E) (i : ℕ) : Option (Group K V E) :=
  match s.calls[i]? with
  | some ⟨key, some c, none⟩ => some (s.finish i ⟨key, some c, none⟩ (.error .timeout))
  | _ => none

end Group

/-! ### Runs -/

inductive Event (K V E : Type)
  /-- A new call takes the lock. -/
  | acquire (key : K)
  /-- A waiting call is woken. -/
  | receive (call : ℕ)
  /-- A waiting call times out. -/
  | elapse (call : ℕ)
  | complete (handle : ℕ) (value : V)
  | fail (handle : ℕ) (error : E)
  | drop (handle : ℕ)

/-- The handle an event ends, and its answer. -/
def Event.sent : Event K V E → Option (ℕ × Except (Error E) V)
  | complete handle value => some (handle, .ok value)
  | fail handle error => some (handle, .error (.failed error))
  | drop handle => some (handle, .error .abandoned)
  | _ => none

/-- The answer with which a handle was ended. -/
def outcome (handle : ℕ) (events : List (Event K V E)) : Option (Except (Error E) V) :=
  (events.filterMap Event.sent).lookup handle

namespace Group

variable [DecidableEq K]

/-- One event; nothing if it cannot happen. -/
def step (max : ℕ) (s : Group K V E) : Event K V E → Option (Group K V E)
  | .acquire key => some (s.tryAcquire max key)
  | .receive call => s.receive call
  | .elapse call => s.elapse call
  | .complete handle value => s.send handle (.ok value)
  | .fail handle error => s.send handle (.error (.failed error))
  | .drop handle => s.send handle (.error .abandoned)

/-- The group after these events. -/
def runFrom (max : ℕ) (s : Group K V E) (events : List (Event K V E)) : Option (Group K V E) :=
  events.foldlM (step max) s

def run (max : ℕ) (events : List (Event K V E)) : Option (Group K V E) :=
  runFrom max new events

/-- What a call that takes the lock now returns at once; nothing if it has to wait. -/
def nextResult (max : ℕ) (s : Group K V E) (key : K) :
    Option (Except (Error E) (Acquisition V)) :=
  ((s.tryAcquire max key).calls.getLast?).bind Call.result

end Group

/-- What callers can rely on: `s` is the group after `events`. -/
structure SingleFlight [DecidableEq K] (max : ℕ) (events : List (Event K V E)) (s : Group K V E) :
    Prop where
  /-- At most one live handle per key. -/
  oneLeader : ∀ (c c' : ℕ) (ch ch' : Channel K V E), s.channels[c]? = some ch →
    s.channels[c']? = some ch' → ch.live = true → ch'.live = true → ch.key = ch'.key → c = c'
  /-- At most `max` keys. -/
  capacity : s.entries.keys.length ≤ max
  /-- After a success every call returns its value, and nobody leads again. -/
  cached : ∀ past c v later p (ch : Channel K V E), events = past ++ .complete c v :: later →
    Group.run max past = some p → p.channels[c]? = some ch →
      s.nextResult max ch.key = some (.ok (.resolved v)) ∧
      ∀ c' (ch' : Channel K V E), s.channels[c']? = some ch' → ch'.key = ch.key →
        c' < p.channels.length ∧ ch'.live = false
  /-- A waiter joined the live leader, and returns its outcome or times out. -/
  shared : ∀ past key later p (call : Call K V E) c, events = past ++ .acquire key :: later →
    Group.run max past = some p → s.calls[p.calls.length]? = some call → call.joined = some c →
      (∃ ch : Channel K V E, p.channels[c]? = some ch ∧ ch.key = key ∧ ch.live = true) ∧
      ∀ r, call.result = some r → r ≠ .error .timeout →
        (outcome c later).map (Except.map .resolved) = some r
  /-- After a failure the next call leads. -/
  retried : ∀ past e later p c (ch : Channel K V E) err, events = past ++ e :: later →
    Group.run max past = some p → p.channels[c]? = some ch → e.sent = some (c, .error err) →
      .acquire ch.key ∉ later →
        s.nextResult max ch.key = some (.ok (.leader s.channels.length))

/-! ### What one event does -/

variable [DecidableEq K] {max : ℕ} {s s' : Group K V E} {e : Event K V E} {key : K} {c : ℕ}
  {ch : Channel K V E}

variable {answer : Except (Error E) V} {call : Call K V E} {r : Except (Error E) (Acquisition V)}
  {v : V}

namespace Group

/-- The group after a handle was ended. -/
def ended (s : Group K V E) (c : ℕ) (ch : Channel K V E) (answer : Except (Error E) V) :
    Group K V E :=
  { s with
    channels := s.channels.set c
      ⟨ch.key, if s.hasReceiver c then some answer else ch.value, false⟩ }

omit [DecidableEq K] in
theorem send_eq_some_iff :
    s.send c answer = some s' ↔
      ∃ ch, s.channels[c]? = some ch ∧ ch.live = true ∧ s' = s.ended c ch answer := by
  unfold send
  split
  case h_1 key value hch =>
    simp only [hch, some.injEq, exists_eq_left', true_and]
    exact eq_comm
  case h_2 hno =>
    simp only [reduceCtorEq, false_iff, not_exists, not_and]
    rintro ⟨key, value, live⟩ hch hlive
    exact absurd (hlive ▸ hch) (hno key value)

omit [DecidableEq K] in
theorem exists_ended {answer : Except (Error E) V} (hsent : e.sent = some (c, answer))
    (h : s.send c answer = some s') :
    ∃ c answer ch, e.sent = some (c, answer) ∧ s.channels[c]? = some ch ∧ ch.live = true ∧
      s' = s.ended c ch answer := by
  obtain ⟨ch, hch, hlive, rfl⟩ := send_eq_some_iff.1 h
  exact ⟨c, answer, ch, hsent, hch, hlive, rfl⟩

theorem calls_tryAcquire (m : ℕ) (s : Group K V E) (key : K) :
    ∃ call, (s.tryAcquire m key).calls = s.calls ++ [call] := by
  unfold tryAcquire
  repeat' split
  all_goals exact ⟨_, rfl⟩

structure Waits (s : Group K V E) (i : ℕ) (call : Call K V E) (c : ℕ) : Prop where
  found : s.calls[i]? = some call
  joined : call.joined = some c
  result : call.result = none

theorem step_cases (h : s.step max e = some s') :
    (∃ key, e = .acquire key ∧ s' = s.tryAcquire max key) ∨
    (∃ c answer ch, e.sent = some (c, answer) ∧ s.channels[c]? = some ch ∧ ch.live = true ∧
      s' = s.ended c ch answer) ∨
    (∃ i call c r, s.Waits i call c ∧ e.sent = none ∧ (∀ key, e ≠ .acquire key) ∧
      (r = .error .timeout ∨ (s.channels[c]?).bind Channel.answer = some r) ∧
      s' = s.finish i call r) := by
  cases e with
  | acquire key => exact .inl ⟨key, rfl, (some.inj h).symm⟩
  | receive i =>
    simp only [step, receive] at h
    split at h
    case h_1 key c hcall =>
      obtain ⟨r, hr, rfl⟩ := map_eq_some_iff.1 h
      exact .inr (.inr ⟨i, _, c, r, ⟨hcall, rfl, rfl⟩, rfl, by simp, .inr hr, rfl⟩)
    case h_2 => simp at h
  | elapse i =>
    simp only [step, elapse] at h
    split at h
    case h_1 key c hcall =>
      exact .inr (.inr ⟨i, _, c, _, ⟨hcall, rfl, rfl⟩, rfl, by simp, .inl rfl,
        (some.inj h).symm⟩)
    case h_2 => simp at h
  | complete handle value => exact .inr (.inl (exists_ended rfl h))
  | fail handle error => exact .inr (.inl (exists_ended rfl h))
  | drop handle => exact .inr (.inl (exists_ended rfl h))

end Group

/-! ### The invariant -/

/-- The map, the channels and the calls agree. -/
structure Sound (max : ℕ) (s : Group K V E) : Prop where
  capacity : s.entries.keys.length ≤ max
  /-- An entry leads to a channel of its key. -/
  registered : ∀ key c, s.entries.lookup key = some c →
    ∃ ch : Channel K V E, s.channels[c]? = some ch ∧ ch.key = key
  /-- A channel that did not fail is the one registered. -/
  current : ∀ (c : ℕ) (ch : Channel K V E), s.channels[c]? = some ch →
    (∀ e, ch.value ≠ some (.error e)) → s.entries.lookup ch.key = some c
  /-- A handle is live until something was sent. -/
  live : ∀ (c : ℕ) (ch : Channel K V E), s.channels[c]? = some ch →
    (ch.live = true ↔ ch.value = none)
  /-- A waiter returned what its channel holds. -/
  waiters : ∀ (i : ℕ) (call : Call K V E) (c : ℕ), s.calls[i]? = some call →
    call.joined = some c → ∃ ch : Channel K V E, s.channels[c]? = some ch ∧
      ∀ r, call.result = some r → r ≠ .error .timeout → ch.answer = some r

/-- Every leader of the key failed. -/
def Group.AllFailed (s : Group K V E) (key : K) : Prop :=
  ∀ (c : ℕ) (ch : Channel K V E), s.channels[c]? = some ch → ch.key = key →
    ∃ e, ch.value = some (.error e)

open Singleflight.Group

namespace Sound

theorem new : Sound max (Group.new : Group K V E) := by
  constructor <;> simp [Group.new]

theorem entry_of_live (h : Sound max s) (hch : s.channels[c]? = some ch) (hlive : ch.live = true) :
    s.entries.lookup ch.key = some c :=
  h.current c ch hch (by simp [(h.live c ch hch).1 hlive])

theorem hasReceiver (h : Sound max s) (hch : s.channels[c]? = some ch) (hlive : ch.live = true) :
    s.hasReceiver c = true := by
  have hmem := AList.mem_lookup_iff.1 (h.entry_of_live hch hlive)
  simp only [Group.hasReceiver, Bool.or_eq_true, List.any_eq_true]
  exact .inl ⟨_, hmem, by simp⟩

theorem tryAcquire_cases (h : Sound max s) (key : K) :
    (∃ c ch v, s.entries.lookup key = some c ∧ s.channels[c]? = some ch ∧ ch.key = key ∧
      ch.value = some (.ok v) ∧
      s.tryAcquire max key = s.push ⟨key, none, some (.ok (.resolved v))⟩) ∨
    (s.AllFailed key ∧ (key ∈ s.entries ∨ s.entries.keys.length < max) ∧
      s.tryAcquire max key = s.pushLeader key) ∨
    (∃ c ch, s.entries.lookup key = some c ∧ s.channels[c]? = some ch ∧ ch.key = key ∧
      ch.value = none ∧ s.tryAcquire max key = s.push ⟨key, some c, none⟩) ∨
    (key ∉ s.entries ∧ max ≤ s.entries.keys.length ∧
      s.tryAcquire max key = s.push ⟨key, none, some (.error (.capacityExceeded max))⟩) := by
  cases hentry : s.entries.lookup key with
  | none =>
    have hnot : key ∉ s.entries := AList.lookup_eq_none.1 hentry
    have hexisting : s.existing key = none := by simp [existing, hentry]
    by_cases hfull : max ≤ s.entries.keys.length
    · exact .inr (.inr (.inr ⟨hnot, hfull, by simp [tryAcquire, hexisting, hfull]⟩))
    · refine .inr (.inl ⟨?_, .inr (by omega), by simp [tryAcquire, hexisting, hfull]⟩)
      intro c ch hch hkey
      by_contra hno
      have := h.current c ch hch (fun e he => hno ⟨e, he⟩)
      rw [hkey, hentry] at this
      exact absurd this (by simp)
  | some c =>
    obtain ⟨ch, hch, hkey⟩ := h.registered key c hentry
    have hexisting : s.existing key = some (ch.value, c) := by simp [existing, hentry, hch]
    rcases hvalue : ch.value with _ | err | v
    · exact .inr (.inr (.inl ⟨c, ch, rfl, hch, hkey, hvalue, by
        simp [tryAcquire, hexisting, hvalue]⟩))
    · refine .inr (.inl ⟨?_, .inl ?_, by simp [tryAcquire, hexisting, hvalue]⟩)
      · intro c' ch' hch' hkey'
        by_contra hno
        -- a channel that did not fail is registered, so it is the failed one
        have := h.current c' ch' hch' (fun e he => hno ⟨e, he⟩)
        grind
      · exact AList.lookup_isSome.1 (by simp [hentry])
    · exact .inl ⟨c, ch, v, rfl, hch, hkey, hvalue, by
        simp [tryAcquire, hexisting, hvalue]⟩

theorem push (h : Sound max s)
    (hjoined : ∀ c, call.joined = some c → c < s.channels.length ∧ call.result = none) :
    Sound max (s.push call) where
  __ := h
  waiters i call' c hcall hc := by
    have hwaiters := h.waiters i call' c
    by_cases hi : i < s.calls.length
    · exact hwaiters (by simpa [Group.push, getElem?_append_left hi] using hcall) hc
    · obtain rfl : call = call' := by
        simp only [Group.push, getElem?_append_right (Nat.le_of_not_lt hi)] at hcall
        grind
      obtain ⟨hlt, hresult⟩ := hjoined c hc
      exact ⟨s.channels[c], getElem?_eq_getElem hlt, by simp [hresult]⟩

theorem lead (h : Sound max s) (key : K) (hfailed : s.AllFailed key)
    (hroom : key ∈ s.entries ∨ s.entries.keys.length < max) : Sound max (s.lead key) where
  capacity := by
    have hcapacity := h.capacity
    simp only [Group.lead, AList.keys_insert, length_cons]
    rcases hroom with hmem | hlt
    · rw [length_erase_of_mem (AList.mem_keys.1 hmem)]
      have := length_pos_of_mem (AList.mem_keys.1 hmem)
      omega
    · have := length_erase_le (a := key) (l := s.entries.keys)
      omega
  registered key' c hentry := by
    by_cases hkey : key' = key
    · subst hkey
      obtain rfl : s.channels.length = c := by simpa [Group.lead] using hentry
      exact ⟨⟨key', none, true⟩, by simp [Group.lead], rfl⟩
    · simp only [Group.lead, AList.lookup_insert_ne hkey] at hentry
      obtain ⟨ch, hch, hk⟩ := h.registered key' c hentry
      refine ⟨ch, ?_, hk⟩
      simp only [Group.lead]
      grind
  current c ch hch hvalue := by
    have := h.current c ch
    simp only [Group.lead] at hch ⊢
    by_cases hc : c < s.channels.length
    · rw [getElem?_append_left hc] at hch
      have hkey : ch.key ≠ key := by
        intro hkey
        obtain ⟨e, he⟩ := hfailed c ch hch hkey
        exact hvalue e he
      rw [AList.lookup_insert_ne hkey]
      exact this hch hvalue
    · have : c = s.channels.length ∧ ch = ⟨key, none, true⟩ := by grind
      obtain ⟨rfl, rfl⟩ := this
      simp
  live c ch hch := by
    have := h.live c ch
    simp only [Group.lead] at hch
    grind
  waiters i call c hcall hc := by
    obtain ⟨ch, hch, hr⟩ := h.waiters i call c hcall hc
    refine ⟨ch, ?_, hr⟩
    simp only [Group.lead]
    grind

theorem ended_eq (h : Sound max s) (hch : s.channels[c]? = some ch) (hlive : ch.live = true)
    (answer : Except (Error E) V) :
    s.ended c ch answer =
      { s with channels := s.channels.set c ⟨ch.key, some answer, false⟩ } := by
  simp [ended, h.hasReceiver hch hlive]

theorem ended (h : Sound max s) (hch : s.channels[c]? = some ch) (hlive : ch.live = true)
    (answer : Except (Error E) V) : Sound max (s.ended c ch answer) := by
  have hentry := h.entry_of_live hch hlive
  rw [h.ended_eq hch hlive]
  constructor
  case capacity => exact h.capacity
  case registered =>
    intro key c' hkey
    have := h.registered key c' hkey
    grind
  case current =>
    intro c' ch' hch' hvalue
    have := h.current c' ch'
    grind
  case live =>
    intro c' ch' hch'
    have := h.live c' ch'
    grind
  case waiters =>
    intro i call c' hcall hc'
    obtain ⟨ch', hch', hr⟩ := h.waiters i call c' hcall hc'
    by_cases hcc : c' = c
    · -- nobody returned an answer of this channel before
      subst hcc
      obtain rfl : ch = ch' := by grind
      have hnone : ch.answer = none := by
        simp [Channel.answer, (h.live _ _ hch).1 hlive, hlive]
      refine ⟨⟨ch.key, some answer, false⟩, by grind, fun r hresult htimeout => ?_⟩
      exact absurd (hr r hresult htimeout) (by simp [hnone])
    · exact ⟨ch', by grind, hr⟩

theorem finish (h : Sound max s) {i : ℕ} (hw : s.Waits i call c)
    (hr : r = .error .timeout ∨ (s.channels[c]?).bind Channel.answer = some r) :
    Sound max (s.finish i call r) where
  __ := h
  waiters j call' c' hcall hc' := by
    by_cases hij : i = j
    · subst hij
      have hcall' : call' = { call with result := some r } := by
        have := hw.found
        simp only [Group.finish] at hcall
        grind
      obtain ⟨ch, hch, -⟩ := h.waiters i call c hw.found hw.joined
      have hcc : c = c' := by grind [hw.joined]
      subst hcc
      refine ⟨ch, hch, fun r' hr' htimeout => ?_⟩
      grind
    · exact h.waiters j call' c' (by simpa [Group.finish, getElem?_set_ne hij] using hcall) hc'

/-- **One event keeps the map, the channels and the calls in agreement.** -/
theorem step (h : Sound max s) (hstep : s.step max e = some s') : Sound max s' := by
  obtain ⟨key, rfl, rfl⟩ | ⟨c, answer, ch, -, hch, hlive, rfl⟩ |
    ⟨i, call, c, r, hw, -, -, hr, rfl⟩ := step_cases hstep
  · obtain ⟨c, ch, v, -, -, -, -, heq⟩ | ⟨hfailed, hroom, heq⟩ | ⟨c, ch, -, hch, -, -, heq⟩ |
      ⟨-, -, heq⟩ := h.tryAcquire_cases key
    · rw [heq]
      exact h.push (by simp)
    · rw [heq]
      exact (h.lead key hfailed hroom).push (by simp)
    · rw [heq]
      exact h.push (by simpa using (List.getElem?_eq_some_iff.1 hch).1)
    · rw [heq]
      exact h.push (by simp)
  · exact h.ended hch hlive answer
  · exact h.finish hw hr

theorem channels_step (h : Sound max s) (hstep : s.step max e = some s') :
    (s'.channels = s.channels ∧ s'.entries = s.entries ∧ e.sent = none) ∨
    (∃ key, e = .acquire key ∧ s.AllFailed key ∧
      s'.channels = s.channels ++ [⟨key, none, true⟩] ∧
      s'.entries = s.entries.insert key s.channels.length) ∨
    (∃ c ch answer, e.sent = some (c, answer) ∧ s.channels[c]? = some ch ∧ ch.live = true ∧
      s'.channels = s.channels.set c ⟨ch.key, some answer, false⟩ ∧ s'.entries = s.entries) := by
  obtain ⟨key, rfl, rfl⟩ | ⟨c, answer, ch, hsent, hch, hlive, rfl⟩ |
    ⟨i, call, c, r, -, hsent, -, -, rfl⟩ := step_cases hstep
  · obtain ⟨c, ch, v, -, -, -, -, heq⟩ | ⟨hfailed, -, heq⟩ | ⟨c, ch, -, -, -, -, heq⟩ |
      ⟨-, -, heq⟩ := h.tryAcquire_cases key
    · exact .inl (by rw [heq]; exact ⟨rfl, rfl, rfl⟩)
    · exact .inr (.inl ⟨key, rfl, hfailed, by rw [heq]; exact ⟨rfl, rfl⟩⟩)
    · exact .inl (by rw [heq]; exact ⟨rfl, rfl, rfl⟩)
    · exact .inl (by rw [heq]; exact ⟨rfl, rfl, rfl⟩)
  · exact .inr (.inr ⟨c, ch, answer, hsent, hch, hlive, by rw [h.ended_eq hch hlive]; simp⟩)
  · exact .inl ⟨rfl, rfl, hsent⟩

theorem channel_step (h : Sound max s) (hstep : s.step max e = some s')
    (hch : s.channels[c]? = some ch) (hsent : ∀ answer, e.sent ≠ some (c, answer)) :
    s'.channels[c]? = some ch := by
  obtain ⟨heq, -, -⟩ | ⟨key, -, -, heq, -⟩ | ⟨c', ch', answer, hsent', -, -, heq, -⟩ :=
    h.channels_step hstep
  · rwa [heq]
  · grind
  · grind

theorem live_of_sent (h : Sound max s) (hstep : s.step max e = some s')
    (hch : s.channels[c]? = some ch)
    (hsent : e.sent = some (c, answer)) :
    ch.live = true ∧ s'.entries = s.entries ∧
      s'.channels = s.channels.set c ⟨ch.key, some answer, false⟩ := by
  obtain ⟨-, -, hnone⟩ | ⟨key, rfl, -⟩ | ⟨c', ch', answer', hsent', hch', hlive, heq, hentries⟩ :=
    h.channels_step hstep
  · simp [hnone] at hsent
  · simp [Event.sent] at hsent
  · grind

end Sound

/-! ### Whole runs -/

namespace Group

variable {events : List (Event K V E)}

theorem runFrom_invariant {motive : Group K V E → Prop}
    (hstep : ∀ t t' e, e ∈ events → motive t → t.step max e = some t' → motive t')
    (hrun : s.runFrom max events = some s') (h : motive s) : motive s' := by
  induction events generalizing s with
  | nil =>
    obtain rfl : s = s' := by simpa [runFrom] using hrun
    exact h
  | cons e rest ih =>
    simp only [runFrom, foldlM_cons, bind_eq_bind, bind_eq_some_iff] at hrun
    obtain ⟨t, ht, hrest⟩ := hrun
    exact ih (fun t t' e' he' => hstep t t' e' (mem_cons_of_mem _ he')) hrest
      (hstep s t e mem_cons_self h ht)

theorem exists_step_of_run {past later : List (Event K V E)} {p : Group K V E}
    (hrun : run max (past ++ e :: later) = some s') (hpast : run max past = some p) :
    ∃ q, p.step max e = some q ∧ q.runFrom max later = some s' := by
  rw [run, runFrom] at hrun hpast
  rw [foldlM_append, hpast] at hrun
  simpa [runFrom, foldlM_cons, bind_eq_some_iff] using hrun

end Group

namespace Sound

variable {events : List (Event K V E)}

theorem runFrom (h : Sound max s) (hrun : s.runFrom max events = some s') : Sound max s' :=
  runFrom_invariant (fun _ _ _ _ ht hstep => ht.step hstep) hrun h

theorem run (hrun : run max events = some s) : Sound max s :=
  Sound.new.runFrom hrun

theorem closed_runFrom (h : Sound max s) (hrun : s.runFrom max events = some s')
    (hch : s.channels[c]? = some ch) (hclosed : ch.live = false) :
    s'.channels[c]? = some ch := by
  refine (runFrom_invariant
    (motive := fun t => Sound max t ∧ t.channels[c]? = some ch) ?_ hrun ⟨h, hch⟩).2
  rintro t t' e - ⟨ht, hch⟩ hstep
  refine ⟨ht.step hstep, ht.channel_step hstep hch fun answer hsent => ?_⟩
  simp [(ht.live_of_sent hstep hch hsent).1] at hclosed

/-- **A channel holds what its handle was ended with.** -/
theorem value_of_run (h : Sound max s) (hrun : s.runFrom max events = some s')
    (hch : s.channels[c]? = some ch) (hlive : ch.live = true) :
    ∃ ch', s'.channels[c]? = some ch' ∧ ch'.value = outcome c events := by
  induction events generalizing s with
  | nil =>
    obtain rfl : s = s' := by simpa [Group.runFrom] using hrun
    exact ⟨ch, hch, (h.live c ch hch).1 hlive⟩
  | cons e rest ih =>
    simp only [Group.runFrom, foldlM_cons, bind_eq_bind,
      bind_eq_some_iff] at hrun
    obtain ⟨t, ht, hrest⟩ := hrun
    by_cases hsent : ∃ answer, e.sent = some (c, answer)
    · obtain ⟨answer, hsent⟩ := hsent
      have hclosed : t.channels[c]? = some ⟨ch.key, some answer, false⟩ := by
        rw [(h.live_of_sent ht hch hsent).2.2]
        grind
      exact ⟨_, (h.step ht).closed_runFrom hrest hclosed rfl, by simp [outcome, hsent]⟩
    · push Not at hsent
      obtain ⟨ch', hch', hvalue⟩ := ih (h.step ht) hrest (h.channel_step ht hch hsent)
      refine ⟨ch', hch', hvalue.trans ?_⟩
      unfold outcome
      rcases he : e.sent with _ | ⟨c', answer⟩
      · simp [he]
      · have hne : c ≠ c' := fun hc => hsent answer (by rw [he, hc])
        simp [he, lookup_cons, beq_eq_false_iff_ne.2 hne]

theorem oneLeader (h : Sound max s) {c' : ℕ} {ch' : Channel K V E}
    (hch : s.channels[c]? = some ch) (hch' : s.channels[c']? = some ch') (hlive : ch.live = true)
    (hlive' : ch'.live = true) (hkey : ch.key = ch'.key) : c = c' := by
  have hentry := h.entry_of_live hch hlive
  rw [hkey, h.entry_of_live hch' hlive'] at hentry
  exact (some.inj hentry).symm

theorem joined_runFrom (hrun : s.runFrom max events = some s') {i : ℕ}
    (hcall : s.calls[i]? = some call) :
    ∃ call', s'.calls[i]? = some call' ∧ call'.joined = call.joined := by
  refine runFrom_invariant
    (motive := fun t => ∃ call', t.calls[i]? = some call' ∧ call'.joined = call.joined)
    ?_ hrun ⟨call, hcall, rfl⟩
  rintro t t' e - ⟨call', hcall', hjoined⟩ hstep
  obtain ⟨key, rfl, rfl⟩ | ⟨c, answer, ch, -, -, -, rfl⟩ | ⟨j, waiting, c, r, hw, -, -, -, rfl⟩ :=
    step_cases hstep
  · refine ⟨call', ?_, hjoined⟩
    have hlt := (List.getElem?_eq_some_iff.1 hcall').1
    obtain ⟨last, hlast⟩ := calls_tryAcquire max t key
    rw [hlast, getElem?_append_left hlt, hcall']
  · exact ⟨call', hcall', hjoined⟩
  · have := hw.found
    simp only [Group.finish]
    grind

/-- After a success: the value is registered, and no channel of the key is newer or live. -/
structure Cached (s : Group K V E) (key : K) (c : ℕ) (v : V) (n : ℕ) : Prop where
  entry : s.entries.lookup key = some c
  value : s.channels[c]? = some ⟨key, some (.ok v), false⟩
  old : ∀ (c' : ℕ) (ch' : Channel K V E), s.channels[c']? = some ch' → ch'.key = key →
    c' < n ∧ ch'.live = false

theorem cached_step {n : ℕ} (h : Sound max s) (hc : Cached s key c v n)
    (hstep : s.step max e = some s') : Cached s' key c v n := by
  obtain ⟨hchannels, hentries, -⟩ | ⟨key', rfl, hfailed, hchannels, hentries⟩ |
    ⟨c', ch', answer, -, hch', hlive, hchannels, hentries⟩ := h.channels_step hstep
  · exact ⟨hentries ▸ hc.entry, hchannels ▸ hc.value, hchannels ▸ hc.old⟩
  · -- nobody leads for a key that has a value
    have hne : key ≠ key' := by
      rintro rfl
      obtain ⟨err, herr⟩ := hfailed c _ hc.value rfl
      simp at herr
    refine ⟨by rw [hentries, AList.lookup_insert_ne hne, hc.entry], ?_, fun c' ch' hch' hkey => ?_⟩
    · have := hc.value
      grind
    · have := hc.old c' ch'
      grind
  · have hkey : ch'.key ≠ key := fun hkey => by simp [(hc.old c' ch' hch' hkey).2] at hlive
    refine ⟨by rw [hentries, hc.entry], ?_, fun c'' ch'' hch'' hkey'' => ?_⟩
    · have := hc.value
      grind
    · have := hc.old c'' ch''
      grind

theorem cached_of_complete {q : Group K V E} (h : Sound max s)
    (hch : s.channels[c]? = some ch) (hstep : s.step max (.complete c v) = some q)
    (hrun : q.runFrom max events = some s') : Cached s' ch.key c v s.channels.length := by
  obtain ⟨hlive, hentries, hchannels⟩ := h.live_of_sent hstep hch rfl
  have hentry := h.entry_of_live hch hlive
  refine (runFrom_invariant
    (motive := fun t => Sound max t ∧ Cached t ch.key c v s.channels.length)
    (fun t t' e _ ht hstep => ⟨ht.1.step hstep, cached_step ht.1 ht.2 hstep⟩) hrun
    ⟨h.step hstep, ⟨by rw [hentries, hentry], by grind, fun c' ch' hch' hkey => ?_⟩⟩).2
  refine ⟨by grind, ?_⟩
  by_cases hcc : c' = c
  · grind
  · have hother : s.channels[c']? = some ch' := by grind
    by_contra hne
    exact hcc (h.oneLeader hother hch (by simpa using hne) hlive hkey)

theorem failed_of_sent {err : Error E} {q : Group K V E} (h : Sound max s)
    (hch : s.channels[c]? = some ch) (hsent : e.sent = some (c, .error err))
    (hstep : s.step max e = some q) (hrun : q.runFrom max events = some s')
    (hnone : .acquire ch.key ∉ events) :
    s'.entries.lookup ch.key = some c ∧
      s'.channels[c]? = some ⟨ch.key, some (.error err), false⟩ := by
  obtain ⟨hlive, hentries, hchannels⟩ := h.live_of_sent hstep hch hsent
  have hclosed : q.channels[c]? = some ⟨ch.key, some (.error err), false⟩ := by grind
  refine ⟨?_, (h.step hstep).closed_runFrom hrun hclosed rfl⟩
  refine (runFrom_invariant
    (motive := fun t => Sound max t ∧ t.entries.lookup ch.key = some c) ?_ hrun
    ⟨h.step hstep, by rw [hentries, h.entry_of_live hch hlive]⟩).2
  rintro t t' e' he' ⟨ht, hentry⟩ hstep'
  refine ⟨ht.step hstep', ?_⟩
  obtain ⟨-, heq, -⟩ | ⟨key', rfl, -, -, heq⟩ | ⟨-, -, -, -, -, -, -, heq⟩ :=
    ht.channels_step hstep'
  · rw [heq, hentry]
  · have hne : ch.key ≠ key' := by
      rintro rfl
      exact hnone he'
    rw [heq, AList.lookup_insert_ne hne, hentry]
  · rw [heq, hentry]

theorem joined_live (h : Sound max s)
    (hcall : (s.tryAcquire max key).calls[s.calls.length]? = some call)
    (hjoined : call.joined = some c) :
    ∃ ch : Channel K V E, s.channels[c]? = some ch ∧ ch.key = key ∧ ch.live = true ∧
      (s.tryAcquire max key).channels = s.channels := by
  have hlast {t : Group K V E} {call' : Call K V E} (hcalls : t.calls = s.calls)
      (heq : s.tryAcquire max key = t.push call') : call'.joined = some c := by
    rw [heq, Group.push, hcalls] at hcall
    obtain rfl : call' = call := by simpa using hcall
    exact hjoined
  obtain ⟨c', ch, v, -, -, -, -, heq⟩ | ⟨-, -, heq⟩ | ⟨c', ch, -, hch, hkey, hvalue, heq⟩ |
    ⟨-, -, heq⟩ := h.tryAcquire_cases key
  · cases hlast rfl heq
  · cases hlast (t := s.lead key) rfl heq
  · obtain rfl : c' = c := some.inj (hlast rfl heq)
    exact ⟨ch, hch, hkey, (h.live c' ch hch).2 hvalue, by rw [heq]; rfl⟩
  · cases hlast rfl heq

end Sound

theorem nextResult_of_value (hentry : s.entries.lookup key = some c)
    (hch : s.channels[c]? = some ch) (hvalue : ch.value = some (.ok v)) :
    s.nextResult max key = some (.ok (.resolved v)) := by
  simp [nextResult, tryAcquire, existing, hentry, hch, hvalue, push]

theorem nextResult_of_error (hentry : s.entries.lookup key = some c)
    (hch : s.channels[c]? = some ch) {err : Error E} (hvalue : ch.value = some (.error err)) :
    s.nextResult max key = some (.ok (.leader s.channels.length)) := by
  simp [nextResult, tryAcquire, existing, hentry, hch, hvalue, pushLeader,
    push, lead]

omit [DecidableEq K] in
theorem outcome_of_answer (hlive : ch.live = true ↔ ch.value = none) (h : ch.answer = some r) :
    ch.value.map (Except.map .resolved) = some r := by
  unfold Channel.answer at h
  split at h
  case h_1 value hvalue => simpa [hvalue, Except.map] using h
  case h_2 err hvalue => simpa [hvalue, Except.map] using h
  case h_3 hvalue => simp [hlive.2 hvalue] at h

/-- **Every run of a group is single-flight.** -/
theorem singleFlight_of_run (max : ℕ) (events : List (Event K V E)) (s : Group K V E)
    (hrun : run max events = some s) : SingleFlight max events s where
  oneLeader c c' ch ch' hch hch' hlive hlive' hkey :=
    (Sound.run hrun).oneLeader hch hch' hlive hlive' hkey
  capacity := (Sound.run hrun).capacity
  cached := by
    rintro past c v later p ch rfl hpast hch
    obtain ⟨q, hstep, hlater⟩ := exists_step_of_run hrun hpast
    have hcached := (Sound.run hpast).cached_of_complete hch hstep hlater
    exact ⟨nextResult_of_value hcached.entry hcached.value rfl, hcached.old⟩
  shared := by
    rintro past key later p call c rfl hpast hcall hjoined
    obtain ⟨q, hstep, hlater⟩ := exists_step_of_run hrun hpast
    obtain rfl : p.tryAcquire max key = q := some.inj hstep
    have hp := Sound.run hpast
    -- the call is the one the critical section recorded
    obtain ⟨first, hcalls⟩ := calls_tryAcquire max p key
    have hfirst : (p.tryAcquire max key).calls[p.calls.length]? = some first := by simp [hcalls]
    obtain ⟨call', hcall', hsame⟩ := Sound.joined_runFrom hlater hfirst
    obtain rfl : call = call' := some.inj (hcall.symm.trans hcall')
    obtain ⟨ch, hch, hkey, hlive, hchannels⟩ := hp.joined_live hfirst (hsame ▸ hjoined)
    refine ⟨⟨ch, hch, hkey, hlive⟩, fun r hr htimeout => ?_⟩
    obtain ⟨ch', hch', hvalue⟩ := (hp.step hstep).value_of_run hlater (hchannels ▸ hch) hlive
    obtain ⟨ch'', hch'', hanswer⟩ := (Sound.run hrun).waiters _ call c hcall hjoined
    obtain rfl : ch' = ch'' := some.inj (hch'.symm.trans hch'')
    rw [← hvalue]
    exact outcome_of_answer ((Sound.run hrun).live c ch' hch') (hanswer r hr htimeout)
  retried := by
    rintro past e later p c ch err rfl hpast hch hsent hnone
    obtain ⟨q, hstep, hlater⟩ := exists_step_of_run hrun hpast
    obtain ⟨hentry, hfailed⟩ := (Sound.run hpast).failed_of_sent hch hsent hstep hlater hnone
    exact nextResult_of_error hentry hfailed rfl

/-- The second call waits for the first, which fails; the third leads again before the second one
wakes, and completes. -/
def retriedRun : List (Event String ℕ String) :=
  [.acquire "cmake", .acquire "cmake", .fail 0 "unreachable", .acquire "cmake", .receive 1,
    .complete 1 7]

theorem retriedRun_singleFlight :
    ∃ s, run 1 retriedRun = some s ∧ SingleFlight 1 retriedRun s :=
  ⟨_, rfl, singleFlight_of_run 1 retriedRun _ rfl⟩

end Ocx.Singleflight
