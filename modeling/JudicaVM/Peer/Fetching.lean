import JudicaVM.Attest.Message
import JudicaVM.Lib.Transition
import Mathlib.Data.Finset.Lattice.Basic
import Mathlib.Data.Finset.SDiff
import Mathlib.Data.List.Induction

/-!
# Hashes in flight

All calls of `get_tips` share a set of hashes in flight. A call leaves out of its request what is in
flight already and puts in the rest; a task that is spawned when the answer has arrived takes the
hashes out again once the answer has been processed.
-/

namespace JudicaVM

open Transition

/-- The last entry takes the place of the one that is removed. -/
def swapRemove {α : Type} (l : List α) (i : ℕ) : List α :=
  match l.getLast? with
  | some last => (l.set i last).dropLast
  | none => l

/-- The loop of `get_tips` over the first entries, from the last of them on: the hashes to request
and the set with them. -/
def scheduleFetch : ℕ → List CanonicalEnvelopeHash → Finset CanonicalEnvelopeHash →
    List CanonicalEnvelopeHash × Finset CanonicalEnvelopeHash
  | 0, tips, inflight => (tips, inflight)
  | idx + 1, tips, inflight =>
    match tips[idx]? with
    | some h =>
      if h ∈ inflight then scheduleFetch idx (swapRemove tips idx) inflight
      else scheduleFetch idx tips (insert h inflight)
    | none => scheduleFetch idx tips inflight

/-- Where the guard of an answer is. -/
inductive GuardPlace
  | returned
  | queued
  | processing
  | refused
  deriving DecidableEq

/-- A call of `get_tips` up to its end and, after it, the guard that it has returned and the task
that it has spawned. -/
inductive FetchCall
  | idle
  | connecting (tips : List CanonicalEnvelopeHash) (useCache : Bool)
  | locking (tips : List CanonicalEnvelopeHash)
  | waiting (tips : List CanonicalEnvelopeHash) (useCache sendOk : Bool)
  | guarded (tips : List CanonicalEnvelopeHash) (place : GuardPlace)
  | notified (tips : List CanonicalEnvelopeHash)
  | ended
  deriving DecidableEq

structure FetchClient where
  inflight : Finset CanonicalEnvelopeHash
  calls : ℕ → FetchCall

inductive FetchEvent
  /-- The task calls `get_tips`. -/
  | call (i : ℕ) (tips : List CanonicalEnvelopeHash) (useCache : Bool)
  /-- There is a connection. Without the cache the request is sent at once. -/
  | connect (i : ℕ) (sendOk : Bool)
  /-- The lock is acquired, the request is filtered and sent. -/
  | send (i : ℕ) (sendOk : Bool)
  /-- The answer arrives, or the channel for it is closed. -/
  | respond (i : ℕ) (resp : Bool)
  /-- The answer is queued for processing, or the queue is closed. -/
  | enqueue (i : ℕ) (sent : Bool)
  | process (i : ℕ)
  /-- The guard is dropped: the answer was processed, or whoever held the guard has ended. -/
  | drop (i : ℕ)
  /-- The spawned task acquires the lock after its notification. -/
  | cleanup (i : ℕ)
  /-- The calling task is aborted at an await point of the call. -/
  | abort (i : ℕ)
  deriving DecidableEq

namespace FetchCall

variable (c : FetchCall)

/-- The hashes that the call has inserted and not yet removed. -/
def own : FetchCall → List CanonicalEnvelopeHash
  | .waiting tips true _ => tips
  | .guarded tips _ => tips
  | .notified tips => tips
  | _ => []

/-- The call waits for its answer, or the answer is on its way through processing. -/
def isActive : FetchCall → Bool
  | .waiting _ _ _ => true
  | .guarded _ _ => true
  | _ => false

/-- The state after the answer. A request that was not sent has no answer, and without an answer
the guard is dropped at once. -/
def answered (tips : List CanonicalEnvelopeHash) (useCache sendOk resp : Bool) : FetchCall :=
  if useCache then
    if sendOk && resp then .guarded tips .returned else .notified tips
  else .ended

end FetchCall

namespace FetchClient

variable (c : FetchClient)

def initial : FetchClient := ⟨∅, fun _ => .idle⟩

def set (i : ℕ) (call : FetchCall) : FetchClient :=
  { c with calls := Function.update c.calls i call }

def step : FetchEvent → Option FetchClient
  | .call i tips useCache =>
    match c.calls i with
    | .idle => some (c.set i (.connecting tips useCache))
    | _ => none
  | .connect i sendOk =>
    match c.calls i with
    | .connecting tips true => some (c.set i (.locking tips))
    | .connecting tips false => some (c.set i (.waiting tips false sendOk))
    | _ => none
  | .send i sendOk =>
    match c.calls i with
    | .locking tips =>
      let (tips', inflight) := scheduleFetch tips.length tips c.inflight
      some { c.set i (.waiting tips' true sendOk) with inflight }
    | _ => none
  | .respond i resp =>
    match c.calls i with
    | .waiting tips useCache sendOk => some (c.set i (.answered tips useCache sendOk resp))
    | _ => none
  | .enqueue i sent =>
    match c.calls i with
    | .guarded tips .returned => some (c.set i (.guarded tips (if sent then .queued else .refused)))
    | _ => none
  | .process i =>
    match c.calls i with
    | .guarded tips .queued => some (c.set i (.guarded tips .processing))
    | _ => none
  | .drop i =>
    match c.calls i with
    | .guarded tips _ => some (c.set i (.notified tips))
    | _ => none
  | .cleanup i =>
    match c.calls i with
    | .notified tips => some { c.set i .ended with inflight := c.inflight \ tips.toFinset }
    | _ => none
  | .abort i =>
    match c.calls i with
    | .connecting _ _ => some (c.set i .ended)
    | .locking _ => some (c.set i .ended)
    | .waiting _ _ _ => some (c.set i .ended)
    | _ => none

end FetchClient

section

variable {h : CanonicalEnvelopeHash} {inflight : Finset CanonicalEnvelopeHash}
  {tips done : List CanonicalEnvelopeHash}

private theorem swapRemove_length (l done : List CanonicalEnvelopeHash)
    (h : CanonicalEnvelopeHash) :
    ∃ done', done'.Perm done ∧ swapRemove (l ++ h :: done) l.length = l ++ done' := by
  cases done using List.reverseRecOn with
  | nil =>
    refine ⟨[], .refl _, ?_⟩
    simp [swapRemove]
  | append_singleton done last =>
    refine ⟨last :: done, ?_, ?_⟩
    · exact (List.perm_append_singleton last done).symm
    · have hlast : (l ++ h :: (done ++ [last])).getLast? = some last := by
        rw [← List.cons_append, ← List.append_assoc, List.getLast?_concat]
      have hset : (l ++ h :: (done ++ [last])).set l.length last =
          (l ++ last :: done) ++ [last] := by
        simp
      rw [swapRemove, hlast]
      simp only
      rw [hset, List.dropLast_concat]

private theorem scheduleFetch_spec (tips done : List CanonicalEnvelopeHash)
    (inflight : Finset CanonicalEnvelopeHash) :
    (∀ h, h ∈ (scheduleFetch tips.length (tips ++ done) inflight).1 ↔
      h ∈ tips ∧ h ∉ inflight ∨ h ∈ done) ∧
    ∀ h, h ∈ (scheduleFetch tips.length (tips ++ done) inflight).2 ↔ h ∈ tips ∨ h ∈ inflight := by
  induction tips using List.reverseRecOn generalizing done inflight with
  | nil => simp [scheduleFetch]
  | append_singleton tips t ih =>
    have hentry : (tips ++ [t] ++ done)[tips.length]? = some t := by simp
    rw [List.length_append, List.length_singleton, scheduleFetch, hentry, List.append_assoc,
      List.singleton_append]
    simp only
    split_ifs with hold
    · obtain ⟨done', hperm, hremoved⟩ := swapRemove_length tips done t
      rw [hremoved]
      obtain ⟨hrequest, hafter⟩ := ih done' inflight
      constructor
      · intro h
        rw [hrequest h, hperm.mem_iff]
        have hsame : h = t → h ∈ inflight := fun heq => heq ▸ hold
        simp only [List.mem_append, List.mem_singleton]
        tauto
      · intro h
        rw [hafter h]
        have hsame : h = t → h ∈ inflight := fun heq => heq ▸ hold
        simp only [List.mem_append, List.mem_singleton]
        tauto
    · obtain ⟨hrequest, hafter⟩ := ih (t :: done) (insert t inflight)
      constructor
      · intro h
        rw [hrequest h]
        have hsame : h = t → h ∉ inflight := fun heq => heq ▸ hold
        simp only [List.mem_append, List.mem_cons, List.not_mem_nil, or_false, Finset.mem_insert]
        tauto
      · intro h
        rw [hafter h]
        simp only [List.mem_append, List.mem_cons, List.not_mem_nil, or_false, Finset.mem_insert]
        tauto

theorem mem_request :
    h ∈ (scheduleFetch tips.length tips inflight).1 ↔ h ∈ tips ∧ h ∉ inflight := by
  have hspec := (scheduleFetch_spec tips [] inflight).1 h
  simpa using hspec

theorem mem_scheduled : h ∈ (scheduleFetch tips.length tips inflight).2 ↔
    h ∈ (scheduleFetch tips.length tips inflight).1 ∨ h ∈ inflight := by
  have hspec := (scheduleFetch_spec tips [] inflight).2 h
  rw [List.append_nil] at hspec
  rw [hspec, mem_request]
  tauto

end

namespace FetchClient

variable {c c' : FetchClient} {i j : ℕ} {h : CanonicalEnvelopeHash} {call : FetchCall}
  {ev : FetchEvent}

private theorem set_calls_self : (c.set i call).calls i = call := by
  simp [set]

private theorem set_calls_of_ne (h : j ≠ i) : (c.set i call).calls j = c.calls j := by
  simp [set, h]

/-- What one step can do: a call goes on without touching its hashes, or it inserts them, or they
are removed, or the call is aborted. -/
theorem step_cases (hstep : c.step ev = some c') :
    (∃ i call, call.own = (c.calls i).own ∧ c' = c.set i call ∧ ∀ j, ev ≠ .abort j) ∨
    (∃ i tips sendOk, c.calls i = .locking tips ∧
      c' = { c.set i (.waiting (scheduleFetch tips.length tips c.inflight).1 true sendOk) with
        inflight := (scheduleFetch tips.length tips c.inflight).2 } ∧ ∀ j, ev ≠ .abort j) ∨
    (∃ i tips, c.calls i = .notified tips ∧
      c' = { c.set i .ended with inflight := c.inflight \ tips.toFinset } ∧ ∀ j, ev ≠ .abort j) ∨
    ∃ i, ev = .abort i ∧ c' = c.set i .ended := by
  have hquiet (i : ℕ) (call : FetchCall) (hown : call.own = (c.calls i).own)
      (hset : some (c.set i call) = some c') (hev : ∀ j, ev ≠ .abort j) :
      ∃ i call, call.own = (c.calls i).own ∧ c' = c.set i call ∧ ∀ j, ev ≠ .abort j :=
    ⟨i, call, hown, (Option.some.inj hset).symm, hev⟩
  cases ev with
  | call i tips useCache =>
    simp only [step] at hstep
    split at hstep
    · rename_i hcall
      exact .inl (hquiet i _ (by rw [hcall]; rfl) hstep fun _ => FetchEvent.noConfusion)
    · cases hstep
  | connect i sendOk =>
    simp only [step] at hstep
    split at hstep
    · rename_i hcall
      exact .inl (hquiet i _ (by rw [hcall]; rfl) hstep fun _ => FetchEvent.noConfusion)
    · rename_i hcall
      exact .inl (hquiet i _ (by rw [hcall]; rfl) hstep fun _ => FetchEvent.noConfusion)
    · cases hstep
  | send i sendOk =>
    simp only [step] at hstep
    split at hstep
    · rename_i tips hcall
      exact .inr (.inl ⟨i, tips, sendOk, hcall, (Option.some.inj hstep).symm,
        fun _ => FetchEvent.noConfusion⟩)
    · cases hstep
  | respond i resp =>
    simp only [step] at hstep
    split at hstep
    · rename_i tips useCache sendOk hcall
      refine .inl (hquiet i _ ?_ hstep fun _ => FetchEvent.noConfusion)
      rw [hcall, FetchCall.answered]
      cases useCache with
      | true =>
        rw [if_pos rfl]
        split <;> rfl
      | false => rfl
    · cases hstep
  | enqueue i sent =>
    simp only [step] at hstep
    split at hstep
    · rename_i hcall
      exact .inl (hquiet i _ (by rw [hcall]; rfl) hstep fun _ => FetchEvent.noConfusion)
    · cases hstep
  | process i =>
    simp only [step] at hstep
    split at hstep
    · rename_i hcall
      exact .inl (hquiet i _ (by rw [hcall]; rfl) hstep fun _ => FetchEvent.noConfusion)
    · cases hstep
  | drop i =>
    simp only [step] at hstep
    split at hstep
    · rename_i hcall
      exact .inl (hquiet i _ (by rw [hcall]; rfl) hstep fun _ => FetchEvent.noConfusion)
    · cases hstep
  | cleanup i =>
    simp only [step] at hstep
    split at hstep
    · rename_i tips hcall
      exact .inr (.inr (.inl ⟨i, tips, hcall, (Option.some.inj hstep).symm,
        fun _ => FetchEvent.noConfusion⟩))
    · cases hstep
  | abort i =>
    have hover : c' = c.set i .ended := by
      simp only [step] at hstep
      split at hstep
      · exact (Option.some.inj hstep).symm
      · exact (Option.some.inj hstep).symm
      · exact (Option.some.inj hstep).symm
      · cases hstep
    exact .inr (.inr (.inr ⟨i, rfl, hover⟩))

/-- What a call has inserted is in flight, and no other call has inserted it. -/
structure Owned (c : FetchClient) : Prop where
  inflight : ∀ i, ∀ h ∈ (c.calls i).own, h ∈ c.inflight
  once : ∀ i j h, h ∈ (c.calls i).own → h ∈ (c.calls j).own → i = j

/-- What is in flight was inserted by a call that waits, whose answer is being processed, or whose
spawned task is about to run. -/
def Accounted (c : FetchClient) : Prop :=
  ∀ h ∈ c.inflight, ∃ i, h ∈ (c.calls i).own

private theorem initial_owned : initial.Owned where
  inflight _ _ hmem := absurd hmem List.not_mem_nil
  once _ _ _ hmem := absurd hmem List.not_mem_nil

private theorem set_own (hown : ∀ h, h ∈ call.own → h ∈ (c.calls i).own)
    (hmem : h ∈ ((c.set i call).calls j).own) :
    h ∈ (c.calls j).own := by
  by_cases hj : j = i
  · rw [hj, set_calls_self] at hmem
    rw [hj]
    exact hown h hmem
  · rwa [set_calls_of_ne hj] at hmem

private theorem Owned.set (hc : c.Owned) (hown : ∀ h, h ∈ call.own → h ∈ (c.calls i).own) :
    (c.set i call).Owned where
  inflight j h hmem := hc.inflight j h (set_own hown hmem)
  once j k h hj hk := hc.once j k h (set_own hown hj) (set_own hown hk)

private theorem Owned.step (hc : c.Owned) (hstep : c.step ev = some c') : c'.Owned := by
  obtain ⟨i, call, hown, rfl, _⟩ | ⟨i, tips, sendOk, hcall, rfl, _⟩ | ⟨i, tips, hcall, rfl, _⟩ |
    ⟨i, _, rfl⟩ := step_cases hstep
  · exact hc.set fun h hmem => hown ▸ hmem
  · constructor
    · intro j h hmem
      apply mem_scheduled.mpr
      by_cases hj : j = i
      · rw [hj] at hmem
        simp only [set_calls_self] at hmem
        exact .inl hmem
      · simp only [set_calls_of_ne hj] at hmem
        exact .inr (hc.inflight j h hmem)
    · intro j k h hj hk
      -- what the call inserts was not in flight, so no other call owns it
      have hfresh (l : ℕ) (hl : l ≠ i) (hmem : h ∈ (c.calls l).own) :
          h ∉ (scheduleFetch tips.length tips c.inflight).1 :=
        fun hnew => (mem_request.mp hnew).2 (hc.inflight l h hmem)
      by_cases hji : j = i
      · by_cases hki : k = i
        · rw [hji, hki]
        · rw [hji] at hj
          simp only [set_calls_self] at hj
          simp only [set_calls_of_ne hki] at hk
          exact absurd hj (hfresh k hki hk)
      · simp only [set_calls_of_ne hji] at hj
        by_cases hki : k = i
        · rw [hki] at hk
          simp only [set_calls_self] at hk
          exact absurd hk (hfresh j hji hj)
        · simp only [set_calls_of_ne hki] at hk
          exact hc.once j k h hj hk
  · have hgiven : ∀ h, h ∈ FetchCall.ended.own → h ∈ (c.calls i).own :=
      fun h hmem => absurd hmem List.not_mem_nil
    constructor
    · intro j h hmem
      have hold := set_own hgiven hmem
      have hj : j ≠ i := by
        intro hj
        rw [hj] at hmem
        simp only [set_calls_self] at hmem
        exact absurd hmem List.not_mem_nil
      apply Finset.mem_sdiff.mpr
      constructor
      · exact hc.inflight j h hold
      · intro hremoved
        have hmine : h ∈ (c.calls i).own := by
          rw [hcall]
          exact List.mem_toFinset.mp hremoved
        exact hj (hc.once j i h hold hmine)
    · intro j k h hj hk
      exact hc.once j k h (set_own hgiven hj) (set_own hgiven hk)
  · exact hc.set fun h hmem => absurd hmem List.not_mem_nil

/-- A call that is aborted has not inserted a hash that it still owns. -/
def AbortsSafely (c : FetchClient) (ev : FetchEvent) : Prop :=
  ∀ i, ev = .abort i → (c.calls i).own = []

private theorem accounted_of_own (hacc : c.Accounted)
    (hinflight : ∀ h ∈ c'.inflight, h ∈ c.inflight)
    (hown : ∀ j, ∀ h ∈ (c.calls j).own, h ∈ c'.inflight → h ∈ (c'.calls j).own) :
    c'.Accounted := by
  intro h hmem
  obtain ⟨j, hj⟩ := hacc h (hinflight h hmem)
  exact ⟨j, hown j h hj hmem⟩

private theorem Accounted.step_iff (hc : c.Owned) (hacc : c.Accounted)
    (hstep : c.step ev = some c') : c'.Accounted ↔ c.AbortsSafely ev := by
  obtain ⟨i, call, hown, rfl, hev⟩ | ⟨i, tips, sendOk, hcall, rfl, hev⟩ |
    ⟨i, tips, hcall, rfl, hev⟩ | ⟨i, rfl, rfl⟩ := step_cases hstep
  · apply iff_of_true _ fun j hj => absurd hj (hev j)
    apply accounted_of_own hacc
    · exact fun h hmem => hmem
    · intro j h hj _
      by_cases hji : j = i
      · rw [hji, set_calls_self, hown, ← hji]
        exact hj
      · rwa [set_calls_of_ne hji]
  · apply iff_of_true _ fun j hj => absurd hj (hev j)
    intro h hmem
    apply (mem_scheduled.mp hmem).elim
    · intro hnew
      refine ⟨i, ?_⟩
      simp only [set_calls_self]
      exact hnew
    · intro hold
      obtain ⟨j, hj⟩ := hacc h hold
      have hji : j ≠ i := by
        intro hji
        rw [hji, hcall] at hj
        exact absurd hj List.not_mem_nil
      refine ⟨j, ?_⟩
      simp only [set_calls_of_ne hji]
      exact hj
  · apply iff_of_true _ fun j hj => absurd hj (hev j)
    apply accounted_of_own hacc fun h hmem => (Finset.mem_sdiff.mp hmem).1
    intro j h hj hleft
    have hji : j ≠ i := by
      intro hji
      rw [hji, hcall] at hj
      exact (Finset.mem_sdiff.mp hleft).2 (List.mem_toFinset.mpr hj)
    simp only [set_calls_of_ne hji]
    exact hj
  · constructor
    · intro hacc' j hj
      obtain rfl : i = j := FetchEvent.abort.inj hj
      -- a hash of the aborted call stays in flight, and no other call has inserted it
      apply List.eq_nil_iff_forall_not_mem.mpr
      intro h hmem
      obtain ⟨k, hk⟩ := hacc' h (hc.inflight i h hmem)
      by_cases hki : k = i
      · rw [hki, set_calls_self] at hk
        exact absurd hk List.not_mem_nil
      · rw [set_calls_of_ne hki] at hk
        exact hki (hc.once k i h hk hmem)
    · intro hsafe
      apply accounted_of_own hacc
      · exact fun h hmem => hmem
      · intro j h hj _
        have hji : j ≠ i := by
          intro hji
          rw [hji, hsafe i rfl] at hj
          exact absurd hj List.not_mem_nil
        rwa [set_calls_of_ne hji]

/-- A call that asks for a hash that is not in flight requests it. -/
def Requests (c : FetchClient) (h : CanonicalEnvelopeHash) : Prop :=
  ∀ i tips sendOk, c.calls i = .locking tips → h ∈ tips →
    ∃ c' own, c.step (.send i sendOk) = some c' ∧ c'.calls i = .waiting own true sendOk ∧ h ∈ own

private theorem requests_of_not_mem (hmem : h ∉ c.inflight) : c.Requests h := by
  intro i tips sendOk hcall hwanted
  refine ⟨{ c.set i (.waiting (scheduleFetch tips.length tips c.inflight).1 true sendOk) with
    inflight := (scheduleFetch tips.length tips c.inflight).2 },
    (scheduleFetch tips.length tips c.inflight).1, ?_, ?_, mem_request.mpr ⟨hwanted, hmem⟩⟩
  · simp only [step, hcall]
  · exact set_calls_self

/-- What is in flight was inserted by a call that is not over, and when no call waits for a hash or
has its answer processed, the hash is requested again, after the spawned task of a call if need
be. -/
structure NeverBlocks (c : FetchClient) : Prop where
  accounted : c.Accounted
  resent : ∀ h, (∀ i, (c.calls i).isActive → h ∉ (c.calls i).own) →
    c.Requests h ∨ ∃ i c', c.step (.cleanup i) = some c' ∧ h ∉ c'.inflight ∧ c'.Requests h

private theorem FetchCall.own_cases (hown : h ∈ call.own) :
    call.isActive = true ∨ ∃ tips, call = .notified tips := by
  cases call with
  | waiting tips useCache sendOk => exact .inl rfl
  | guarded tips place => exact .inl rfl
  | notified tips => exact .inr ⟨tips, rfl⟩
  | idle => exact absurd hown List.not_mem_nil
  | connecting tips useCache => exact absurd hown List.not_mem_nil
  | locking tips => exact absurd hown List.not_mem_nil
  | ended => exact absurd hown List.not_mem_nil

private theorem neverBlocks_iff : c.NeverBlocks ↔ c.Accounted := by
  constructor
  · exact NeverBlocks.accounted
  · intro hacc
    refine ⟨hacc, ?_⟩
    intro h hquiet
    by_cases hmem : h ∈ c.inflight
    · obtain ⟨i, hown⟩ := hacc h hmem
      obtain ⟨tips, hcall⟩ := (FetchCall.own_cases hown).resolve_left fun hactive =>
        hquiet i hactive hown
      rw [hcall] at hown
      apply Or.inr
      have hremoved : h ∉ c.inflight \ tips.toFinset := by
        intro hleft
        exact (Finset.mem_sdiff.mp hleft).2 (List.mem_toFinset.mpr hown)
      refine ⟨i, { c.set i .ended with inflight := c.inflight \ tips.toFinset }, ?_, hremoved,
        requests_of_not_mem hremoved⟩
      simp only [step, hcall]
    · exact .inl (requests_of_not_mem hmem)

end FetchClient

/-- In every run, in-flight tracking never blocks a fetch exactly when no call is aborted while it
waits for the answer to hashes that it has inserted. -/
theorem fetch_never_blocks_iff (evs : List FetchEvent) :
    Throughout FetchClient.step FetchClient.NeverBlocks evs .initial ↔
      Along FetchClient.step FetchClient.AbortsSafely evs .initial := by
  apply throughout_iff_along (I := FetchClient.Owned)
  · exact fun _ _ _ hc hstep => hc.step hstep
  · intro c ev c' hc hgood hstep
    rw [FetchClient.neverBlocks_iff]
    exact hgood.accounted.step_iff hc hstep
  · exact FetchClient.initial_owned
  · apply FetchClient.neverBlocks_iff.mpr
    intro h hmem
    exact absurd hmem (Finset.notMem_empty h)

/-- A session fails while a call waits for a hash, the fetching task is aborted, and the hash stays
in flight. -/
theorem aborted_fetch_blocks : ¬Throughout FetchClient.step FetchClient.NeverBlocks
    [.call 0 [⟨1⟩] true, .connect 0 true, .send 0 true, .abort 0] .initial := by
  intro h
  have hlast := (((h.2 _ rfl).2 _ rfl).2 _ rfl).2 _ rfl
  obtain ⟨i, hown⟩ := FetchClient.NeverBlocks.accounted hlast ⟨1⟩ (by decide)
  cases i with
  | zero => exact absurd hown List.not_mem_nil
  | succ i => exact absurd hown List.not_mem_nil

end JudicaVM
