import JudicaVM.Lib.Transition
import JudicaVM.Sequencer.Trace

/-!
# The online sequencer

The batcher takes the envelopes of the scheduled hashes out of a cache that others fill. When the
next envelope is missing it registers for a notification under the lock of the cache, releases the
lock and waits.
-/

namespace JudicaVM

open Transition

section

variable {E : Type}

/-- Where the batcher is: it awaits a batch, or a notification that comes after the one with a given
number, or the lock of the cache; or it holds the lock; or it has returned, leaving the rest of a
batch. -/
inductive Batcher
  | receiving
  | waiting (envelopeHashes : List CanonicalEnvelopeHash) (notified : ℕ)
  | locking (envelopeHashes : List CanonicalEnvelopeHash)
  | draining (envelopeHashes : List CanonicalEnvelopeHash)
  | stopped (envelopeHashes : List CanonicalEnvelopeHash)
  deriving DecidableEq

/-- The channel of batches, the cache, the notifications that were sent and those that are still due
for what was put into the cache, and the envelopes that were pushed. All batches that arrived, all
entries that were put into the cache and the hashes of the pushed envelopes are kept for comparison
only. -/
structure EnvelopeBatcher (E : Type) where
  batchesToSequence : List (List CanonicalEnvelopeHash)
  closed : Bool
  msgCache : CanonicalEnvelopeHash → Option E
  notifications : ℕ
  due : ℕ
  shutdown : Bool
  phase : Batcher
  pushed : List (CanonicalEnvelopeHash × E)
  scheduled : List (List CanonicalEnvelopeHash)
  filled : List (CanonicalEnvelopeHash × E)

inductive SequencerEvent (E : Type)
  | schedule (batch : List CanonicalEnvelopeHash)
  | close
  | fill (entries : List (CanonicalEnvelopeHash × E))
  | notifyWaiters
  | shutdown
  | batcher

/-- A cache after its entries have been inserted one after the other. -/
def fillCache (cache : CanonicalEnvelopeHash → Option E)
    (entries : List (CanonicalEnvelopeHash × E)) : CanonicalEnvelopeHash → Option E :=
  entries.foldl (fun cache x => Function.update cache x.1 (some x.2)) cache

namespace EnvelopeBatcher

def initial : EnvelopeBatcher E where
  batchesToSequence := []
  closed := false
  msgCache := fun _ => none
  notifications := 0
  due := 0
  shutdown := false
  phase := .receiving
  pushed := []
  scheduled := []
  filled := []

variable (s : EnvelopeBatcher E)

/-- The envelopes that were pushed to the next stage. -/
def output : List E := s.pushed.map Prod.snd

/-- The next step of `start_envelope_batcher`, if it can take one. -/
def batcherStep : Option (EnvelopeBatcher E) :=
  match s.phase with
  | .receiving =>
    match s.batchesToSequence with
    | [] => if s.closed then some { s with phase := .stopped [] } else none
    | batch :: rest =>
      let phase := if batch = [] then .receiving else .locking batch
      some { s with batchesToSequence := rest, phase }
  | .waiting hashes notified =>
    if notified < s.notifications then
      -- a batcher that is woken looks for a shutdown first
      some { s with phase := if s.shutdown then .stopped hashes else .locking hashes }
    else none
  | .locking hashes => some { s with phase := .draining hashes }
  | .draining [] => some { s with phase := .receiving }
  | .draining (h :: rest) =>
    match s.msgCache h with
    | some e =>
      some { s with
        msgCache := Function.update s.msgCache h none
        pushed := s.pushed ++ [(h, e)]
        phase := .draining rest }
    | none => some { s with phase := .waiting (h :: rest) s.notifications }
  | .stopped _ => none

/-- Who fills the cache holds its lock, and notifies afterwards when there was something to insert. -/
def step : SequencerEvent E → Option (EnvelopeBatcher E)
  | .schedule batch =>
    if s.closed then none
    else some { s with
      batchesToSequence := s.batchesToSequence ++ [batch]
      scheduled := s.scheduled ++ [batch] }
  | .close => some { s with closed := true }
  | .fill entries =>
    match s.phase with
    | .draining _ => none
    | _ =>
      some { s with
        msgCache := fillCache s.msgCache entries
        due := if entries = [] then s.due else s.due + 1
        filled := s.filled ++ entries }
  | .notifyWaiters => some { s with notifications := s.notifications + 1, due := s.due - 1 }
  | .shutdown => some { s with shutdown := true }
  | .batcher => s.batcherStep

/-- The states that are reached under any interleaving. -/
def Reachable : EnvelopeBatcher E → Prop :=
  Run (fun s (ev : SequencerEvent E) s' => s.step ev = some s') (fun _ => True) initial

end EnvelopeBatcher

/-- The hashes that the batcher has taken from the channel and not pushed. -/
def Batcher.hashes : Batcher → List CanonicalEnvelopeHash
  | .receiving => []
  | .waiting hashes _ => hashes
  | .locking hashes => hashes
  | .draining hashes => hashes
  | .stopped hashes => hashes

variable {s s' : EnvelopeBatcher E} {h : CanonicalEnvelopeHash} {e : E}
  {cache : CanonicalEnvelopeHash → Option E} {entries : List (CanonicalEnvelopeHash × E)}

theorem mem_of_fillCache (hc : fillCache cache entries h = some e) :
    cache h = some e ∨ (h, e) ∈ entries := by
  induction entries generalizing cache with
  | nil => exact .inl hc
  | cons x entries ih =>
    have hstep : fillCache (Function.update cache x.1 (some x.2)) entries h = some e := hc
    rcases ih hstep with hcache | hmem
    · by_cases heq : h = x.1
      · subst heq
        rw [Function.update_self] at hcache
        obtain rfl := Option.some.inj hcache
        exact .inr List.mem_cons_self
      · rw [Function.update_of_ne heq] at hcache
        exact .inl hcache
    · exact .inr (List.mem_cons_of_mem _ hmem)

theorem isSome_fillCache :
    (fillCache cache entries h).isSome ↔ (cache h).isSome ∨ h ∈ entries.map Prod.fst := by
  induction entries generalizing cache with
  | nil => simp [fillCache]
  | cons x entries ih =>
    have hstep : fillCache cache (x :: entries) =
        fillCache (Function.update cache x.1 (some x.2)) entries := rfl
    rw [hstep, ih, List.map_cons, List.mem_cons]
    by_cases heq : h = x.1
    · subst heq
      simp
    · rw [Function.update_of_ne heq]
      simp [heq]

namespace EnvelopeBatcher

/-- The pushed hashes and those that are left are the scheduled ones, in order; what was put into the
cache is there or was pushed; and a batcher that waits for an envelope in the cache was notified or
will be. -/
structure Inv (s : EnvelopeBatcher E) : Prop where
  order : s.pushed.map Prod.fst ++ s.phase.hashes ++ s.batchesToSequence.flatten =
    s.scheduled.flatten
  cached : ∀ h e, s.msgCache h = some e → (h, e) ∈ s.filled
  pushed : s.pushed ⊆ s.filled
  kept : ∀ x ∈ s.filled, (s.msgCache x.1).isSome ∨ x.1 ∈ s.pushed.map Prod.fst
  woken : ∀ h rest n, s.phase = .waiting (h :: rest) n → (s.msgCache h).isSome →
    n < s.notifications ∨ 0 < s.due
  waits : ∀ hashes n, s.phase = .waiting hashes n → hashes ≠ [] ∧ n ≤ s.notifications
  stops : ∀ hashes, s.phase = .stopped hashes →
    s.shutdown ∨ hashes = [] ∧ s.batchesToSequence = [] ∧ s.closed

private theorem initial_inv : (initial : EnvelopeBatcher E).Inv := by
  constructor <;> simp [initial, Batcher.hashes]

private theorem Inv.schedule (hs : s.Inv) (batch : List CanonicalEnvelopeHash)
    (hopen : s.closed = false) :
    Inv { s with
      batchesToSequence := s.batchesToSequence ++ [batch]
      scheduled := s.scheduled ++ [batch] } := by
  refine ⟨?_, hs.cached, hs.pushed, hs.kept, hs.woken, hs.waits, fun hashes hphase => ?_⟩
  · show s.pushed.map Prod.fst ++ s.phase.hashes ++ (s.batchesToSequence ++ [batch]).flatten =
      (s.scheduled ++ [batch]).flatten
    rw [List.flatten_append, List.flatten_append, ← hs.order, List.append_assoc _ _ [batch].flatten]
  · refine (hs.stops hashes hphase).imp_right fun h => ?_
    rw [hopen] at h
    exact absurd h.2.2 (by decide)

private theorem Inv.close (hs : s.Inv) : Inv { s with closed := true } :=
  ⟨hs.order, hs.cached, hs.pushed, hs.kept, hs.woken, hs.waits,
    fun hashes hphase => (hs.stops hashes hphase).imp_right fun h => ⟨h.1, h.2.1, rfl⟩⟩

private theorem Inv.shutdown (hs : s.Inv) : Inv { s with shutdown := true } :=
  ⟨hs.order, hs.cached, hs.pushed, hs.kept, hs.woken, hs.waits, fun _ _ => .inl rfl⟩

private theorem Inv.notifyWaiters (hs : s.Inv) :
    Inv { s with notifications := s.notifications + 1, due := s.due - 1 } := by
  refine ⟨hs.order, hs.cached, hs.pushed, hs.kept, fun h rest n hphase _ => ?_,
    fun hashes n hphase => ?_, hs.stops⟩
  · exact .inl (Nat.lt_succ_of_le (hs.waits _ n hphase).2)
  · exact (hs.waits hashes n hphase).imp_right Nat.le_succ_of_le

private theorem Inv.fill (hs : s.Inv) (entries : List (CanonicalEnvelopeHash × E)) :
    Inv { s with
      msgCache := fillCache s.msgCache entries
      due := if entries = [] then s.due else s.due + 1
      filled := s.filled ++ entries } := by
  refine ⟨hs.order, fun h e hc => ?_, fun x hx => List.mem_append_left _ (hs.pushed hx),
    fun x hx => ?_, fun h rest n hphase hc => ?_, hs.waits, hs.stops⟩
  · rcases mem_of_fillCache hc with hold | hnew
    · exact List.mem_append_left _ (hs.cached h e hold)
    · exact List.mem_append_right _ hnew
  · rw [isSome_fillCache]
    rcases List.mem_append.mp hx with hold | hnew
    · exact (hs.kept x hold).imp_left .inl
    · exact .inl (.inr (List.mem_map_of_mem hnew))
  · by_cases hempty : entries = []
    · subst hempty
      simpa using hs.woken h rest n hphase hc
    · simp only [if_neg hempty]
      exact .inr (Nat.succ_pos _)

private theorem Inv.receive (hs : s.Inv) {batch : List CanonicalEnvelopeHash}
    {rest : List (List CanonicalEnvelopeHash)} (hphase : s.phase = .receiving)
    (hbatches : s.batchesToSequence = batch :: rest) :
    Inv { s with
      batchesToSequence := rest
      phase := if batch = [] then .receiving else .locking batch } := by
  have horder := hs.order
  rw [hphase, hbatches, List.flatten_cons] at horder
  refine ⟨?_, hs.cached, hs.pushed, hs.kept, ?_, ?_, ?_⟩
  · show s.pushed.map Prod.fst ++ Batcher.hashes (if batch = [] then .receiving else .locking batch) ++
      rest.flatten = s.scheduled.flatten
    rw [← horder]
    by_cases hempty : batch = []
    · rw [if_pos hempty, hempty, List.nil_append]
    · rw [if_neg hempty]
      simp [Batcher.hashes]
  · intro h rest' n hwait
    split at hwait <;> cases hwait
  · intro hashes n hwait
    split at hwait <;> cases hwait
  · intro hashes hstop
    split at hstop <;> cases hstop

private theorem Inv.push (hs : s.Inv) {rest : List CanonicalEnvelopeHash}
    (hphase : s.phase = .draining (h :: rest)) (hcached : s.msgCache h = some e) :
    Inv { s with
      msgCache := Function.update s.msgCache h none
      pushed := s.pushed ++ [(h, e)]
      phase := .draining rest } := by
  have horder := hs.order
  rw [hphase] at horder
  refine ⟨?_, fun h' e' hc => ?_, ?_, fun x hx => ?_, by simp, by simp, by simp⟩
  · rw [← horder]
    simp [Batcher.hashes]
  · have hc : Function.update s.msgCache h none h' = some e' := hc
    by_cases heq : h' = h
    · subst heq
      rw [Function.update_self] at hc
      cases hc
    · rw [Function.update_of_ne heq] at hc
      exact hs.cached h' e' hc
  · intro x hx
    rcases List.mem_append.mp hx with hold | hnew
    · exact hs.pushed hold
    · rw [List.mem_singleton.mp hnew]
      exact hs.cached h e hcached
  · show (Function.update s.msgCache h none x.1).isSome ∨ x.1 ∈ (s.pushed ++ [(h, e)]).map Prod.fst
    rw [List.map_append, List.mem_append]
    by_cases heq : x.1 = h
    · exact .inr (.inr (by simp [heq]))
    · rw [Function.update_of_ne heq]
      exact (hs.kept x hx).imp_right .inl

/-- When the head of the batch is missing, it stays, and the batcher registers for the next
notification. -/
theorem Inv.wait (hs : s.Inv) {rest : List CanonicalEnvelopeHash}
    (hphase : s.phase = .draining (h :: rest)) (hmissing : s.msgCache h = none) :
    Inv { s with phase := .waiting (h :: rest) s.notifications } := by
  have horder := hs.order
  rw [hphase] at horder
  refine ⟨horder, hs.cached, hs.pushed, hs.kept, ?_, ?_, by simp⟩
  · intro h' rest' n hwait hc
    obtain ⟨heq, rfl⟩ := Batcher.waiting.inj hwait
    obtain ⟨rfl, rfl⟩ := List.cons.inj heq
    rw [hmissing] at hc
    cases hc
  · intro hashes n hwait
    obtain ⟨rfl, rfl⟩ := Batcher.waiting.inj hwait
    exact ⟨List.cons_ne_nil _ _, Nat.le_refl _⟩

private theorem Inv.move (hs : s.Inv) {phase : Batcher} (hhashes : phase.hashes = s.phase.hashes)
    (hwaits : ∀ hashes n, phase ≠ .waiting hashes n)
    (hstops : ∀ hashes, phase = .stopped hashes →
      s.shutdown ∨ hashes = [] ∧ s.batchesToSequence = [] ∧ s.closed) :
    Inv { s with phase } := by
  refine ⟨?_, hs.cached, hs.pushed, hs.kept, ?_, ?_, hstops⟩
  · show s.pushed.map Prod.fst ++ phase.hashes ++ _ = _
    rw [hhashes]
    exact hs.order
  · exact fun h rest n hwait => absurd hwait (hwaits _ n)
  · exact fun hashes n hwait => absurd hwait (hwaits _ n)

theorem Inv.batcherStep (hs : s.Inv) (hstep : s.batcherStep = some s') : s'.Inv := by
  unfold EnvelopeBatcher.batcherStep at hstep
  split at hstep
  · rename_i hphase
    split at hstep
    · rename_i hbatches
      split_ifs at hstep with hclosed
      obtain rfl := Option.some.inj hstep
      exact hs.move (by rw [hphase]; rfl) (by simp) fun hashes hstop =>
        .inr ⟨(Batcher.stopped.inj hstop).symm, hbatches, hclosed⟩
    · rename_i batch rest hbatches
      obtain rfl := Option.some.inj hstep
      exact hs.receive hphase hbatches
  · rename_i hashes n hphase
    split_ifs at hstep with hwoken hshutdown
    · obtain rfl := Option.some.inj hstep
      exact hs.move (by rw [hphase]; rfl) (by simp) fun _ _ => .inl hshutdown
    · obtain rfl := Option.some.inj hstep
      exact hs.move (by rw [hphase]; rfl) (by simp) (by simp)
  · rename_i hashes hphase
    obtain rfl := Option.some.inj hstep
    exact hs.move (by rw [hphase]; rfl) (by simp) (by simp)
  · rename_i hphase
    obtain rfl := Option.some.inj hstep
    exact hs.move (by rw [hphase]; rfl) (by simp) (by simp)
  · rename_i h rest hphase
    split at hstep
    · rename_i e hcached
      obtain rfl := Option.some.inj hstep
      exact hs.push hphase hcached
    · rename_i hmissing
      obtain rfl := Option.some.inj hstep
      exact hs.wait hphase hmissing
  · cases hstep

private theorem Inv.step (hs : s.Inv) {ev : SequencerEvent E} (hstep : s.step ev = some s') :
    s'.Inv := by
  cases ev with
  | schedule batch =>
    unfold EnvelopeBatcher.step at hstep
    split_ifs at hstep with hclosed
    obtain rfl := Option.some.inj hstep
    exact hs.schedule batch (by simpa using hclosed)
  | close =>
    obtain rfl := Option.some.inj hstep
    exact hs.close
  | fill entries =>
    simp only [EnvelopeBatcher.step] at hstep
    split at hstep
    · cases hstep
    · obtain rfl := Option.some.inj hstep
      exact hs.fill entries
  | notifyWaiters =>
    obtain rfl := Option.some.inj hstep
    exact hs.notifyWaiters
  | shutdown =>
    obtain rfl := Option.some.inj hstep
    exact hs.shutdown
  | batcher => exact hs.batcherStep hstep

theorem Reachable.inv (h : Reachable s) : s.Inv :=
  Run.invariant (fun _ _ _ _ hs hstep => hs.step hstep) h initial_inv

theorem Inv.isPrefix (hs : s.Inv) : s.pushed.map Prod.fst <+: s.scheduled.flatten := by
  rw [← hs.order, List.append_assoc]
  exact List.prefix_append _ _

/-- The batcher waits for an envelope in the cache and no notification is to come. -/
def Stuck (s : EnvelopeBatcher E) : Prop :=
  ∃ h rest n, s.phase = .waiting (h :: rest) n ∧ (s.msgCache h).isSome ∧ s.notifications ≤ n ∧
    s.due = 0

theorem Inv.not_stuck (hs : s.Inv) : ¬s.Stuck := by
  rintro ⟨h, rest, n, hphase, hcached, hle, hdue⟩
  rcases hs.woken h rest n hphase hcached with hwoken | hpos
  · omega
  · omega

/-- The scheduled hashes are distinct, their envelopes have all been put into the cache as they are in
a given one, and the notifications for them were sent. -/
structure Supplied (s : EnvelopeBatcher E) (cache : List (CanonicalEnvelopeHash × E)) : Prop where
  nodup : s.scheduled.flatten.Nodup
  filled : ∀ h ∈ s.scheduled.flatten, h ∈ s.filled.map Prod.fst
  agrees : ∀ x ∈ s.filled, cache.lookup x.1 = some x.2
  notified : s.due = 0
  running : s.shutdown = false

private theorem Inv.isSome_of_supplied (hs : s.Inv) {cache : List (CanonicalEnvelopeHash × E)}
    (hsupply : s.Supplied cache) (hh : h ∈ s.phase.hashes ++ s.batchesToSequence.flatten) :
    (s.msgCache h).isSome := by
  have hnodup := hsupply.nodup
  rw [← hs.order, List.append_assoc, List.nodup_append] at hnodup
  have hmem : h ∈ s.scheduled.flatten := by
    rw [← hs.order, List.append_assoc]
    exact List.mem_append_right _ hh
  obtain ⟨x, hx, rfl⟩ := List.mem_map.mp (hsupply.filled h hmem)
  refine (hs.kept x hx).resolve_right fun hpushed => ?_
  exact hnodup.2.2 _ hpushed _ hh rfl

theorem Inv.order_of_blocked (hs : s.Inv) {cache : List (CanonicalEnvelopeHash × E)}
    (hsupply : s.Supplied cache) (hblocked : s.batcherStep = none) :
    s.pushed.map Prod.fst = s.scheduled.flatten := by
  have hrest : s.phase.hashes = [] ∧ s.batchesToSequence = [] := by
    unfold EnvelopeBatcher.batcherStep at hblocked
    split at hblocked
    · rename_i hphase
      split at hblocked
      · rename_i hbatches
        rw [hphase]
        exact ⟨rfl, hbatches⟩
      · cases hblocked
    · rename_i hashes n hphase
      split_ifs at hblocked with hwoken
      obtain ⟨hne, _⟩ := hs.waits hashes n hphase
      obtain ⟨h, rest, rfl⟩ := List.exists_cons_of_ne_nil hne
      have hcached : (s.msgCache h).isSome := by
        apply hs.isSome_of_supplied hsupply
        rw [hphase]
        exact List.mem_append_left _ List.mem_cons_self
      exact absurd ⟨h, rest, n, hphase, hcached, Nat.le_of_not_lt hwoken, hsupply.notified⟩
        hs.not_stuck
    · cases hblocked
    · cases hblocked
    · split at hblocked <;> cases hblocked
    · rename_i hashes hphase
      rcases hs.stops hashes hphase with hshutdown | ⟨rfl, hbatches, _⟩
      · rw [hsupply.running] at hshutdown
        cases hshutdown
      · rw [hphase]
        exact ⟨rfl, hbatches⟩
  rw [← hs.order, hrest.1, hrest.2]
  simp

/-- The steps that the batcher has left, at most. -/
def fuel (s : EnvelopeBatcher E) : ℕ :=
  8 * (s.phase.hashes.length + s.batchesToSequence.flatten.length + s.batchesToSequence.length) +
    match s.phase with
    | .receiving => 1
    | .waiting _ n => if n < s.notifications then 4 else 0
    | .locking _ => 3
    | .draining _ => 2
    | .stopped _ => 0

theorem fuel_lt_of_batcherStep (hstep : s.batcherStep = some s') : s'.fuel < s.fuel := by
  unfold EnvelopeBatcher.batcherStep at hstep
  split at hstep
  · rename_i hphase
    split at hstep
    · rename_i hbatches
      split_ifs at hstep
      obtain rfl := Option.some.inj hstep
      simp [fuel, hphase, hbatches, Batcher.hashes]
    · rename_i batch rest hbatches
      obtain rfl := Option.some.inj hstep
      by_cases hempty : batch = []
      · simp [fuel, hphase, hbatches, hempty, Batcher.hashes]
      · simp [fuel, hphase, hbatches, hempty, Batcher.hashes]
        omega
  · rename_i hashes n hphase
    split_ifs at hstep with hwoken hshutdown
    · obtain rfl := Option.some.inj hstep
      simp [fuel, hphase, hwoken, Batcher.hashes]
    · obtain rfl := Option.some.inj hstep
      simp [fuel, hphase, hwoken, Batcher.hashes]
  · rename_i hashes hphase
    obtain rfl := Option.some.inj hstep
    simp [fuel, hphase, Batcher.hashes]
  · rename_i hphase
    obtain rfl := Option.some.inj hstep
    simp [fuel, hphase, Batcher.hashes]
  · rename_i h rest hphase
    split at hstep
    · obtain rfl := Option.some.inj hstep
      simp [fuel, hphase, Batcher.hashes]
    · obtain rfl := Option.some.inj hstep
      simp [fuel, hphase, Batcher.hashes]
  · cases hstep

/-- The second state is where the batcher gets from the first when nothing else happens. -/
def Settles (s s' : EnvelopeBatcher E) : Prop :=
  Relation.ReflTransGen (fun s s' => s.batcherStep = some s') s s' ∧ s'.batcherStep = none

theorem exists_settles (s : EnvelopeBatcher E) : ∃ s', s.Settles s' := by
  induction hn : s.fuel using Nat.strong_induction_on generalizing s with
  | h n ih =>
    cases hstep : s.batcherStep with
    | none => exact ⟨s, .refl, hstep⟩
    | some s₁ =>
      obtain ⟨s', hrun, hblocked⟩ := ih s₁.fuel (hn ▸ fuel_lt_of_batcherStep hstep) s₁ rfl
      exact ⟨s', hrun.head hstep, hblocked⟩

/-- The batcher on its own changes neither what was scheduled nor what was put into the cache. -/
theorem batcherStep_frame (hstep : s.batcherStep = some s') : s'.scheduled = s.scheduled ∧
    s'.filled = s.filled ∧ s'.due = s.due ∧ s'.shutdown = s.shutdown := by
  unfold EnvelopeBatcher.batcherStep at hstep
  split at hstep
  · split at hstep
    · split_ifs at hstep
      cases hstep
      exact ⟨rfl, rfl, rfl, rfl⟩
    · cases hstep
      exact ⟨rfl, rfl, rfl, rfl⟩
  · split_ifs at hstep <;> cases hstep <;> exact ⟨rfl, rfl, rfl, rfl⟩
  · cases hstep
    exact ⟨rfl, rfl, rfl, rfl⟩
  · cases hstep
    exact ⟨rfl, rfl, rfl, rfl⟩
  · split at hstep <;> cases hstep <;> exact ⟨rfl, rfl, rfl, rfl⟩
  · cases hstep

theorem Settles.frame (hsettles : s.Settles s') : s'.scheduled = s.scheduled ∧
    s'.filled = s.filled ∧ s'.due = s.due ∧ s'.shutdown = s.shutdown := by
  obtain ⟨hrun, -⟩ := hsettles
  induction hrun with
  | refl => exact ⟨rfl, rfl, rfl, rfl⟩
  | tail _ hstep ih =>
    obtain ⟨h₁, h₂, h₃, h₄⟩ := batcherStep_frame hstep
    exact ⟨h₁.trans ih.1, h₂.trans ih.2.1, h₃.trans ih.2.2.1, h₄.trans ih.2.2.2⟩

theorem Reachable.settles (h : Reachable s) (hsettles : s.Settles s') : Reachable s' := by
  obtain ⟨hrun, -⟩ := hsettles
  induction hrun with
  | refl => exact h
  | tail _ hstep ih => exact Run.tail (e := .batcher) ih trivial hstep

theorem Supplied.settles {cache : List (CanonicalEnvelopeHash × E)} (hsupply : s.Supplied cache)
    (hsettles : s.Settles s') : s'.Supplied cache := by
  obtain ⟨hscheduled, hfilled, hdue, hshutdown⟩ := hsettles.frame
  constructor
  · rw [hscheduled]
    exact hsupply.nodup
  · rw [hscheduled, hfilled]
    exact hsupply.filled
  · rw [hfilled]
    exact hsupply.agrees
  · rw [hdue]
    exact hsupply.notified
  · rw [hshutdown]
    exact hsupply.running

private theorem Inv.map_output (hs : s.Inv) {cache : List (CanonicalEnvelopeHash × E)}
    (hagrees : ∀ x ∈ s.filled, cache.lookup x.1 = some x.2) :
    s.output.map some = (s.pushed.map Prod.fst).map fun h => cache.lookup h := by
  rw [output, List.map_map, List.map_map]
  exact List.map_congr_left fun x hx => (hagrees x (hs.pushed hx)).symm

end EnvelopeBatcher

section

variable {M : Type} {b b' : EnvelopeBatcher (Envelope M)}

/-- Under every interleaving, what was pushed is a prefix of what was scheduled, and the batcher does
not wait in vain. When the cache has been supplied with all that is scheduled, the batcher comes to
rest and has output what the offline sequencer does. -/
theorem online_sequencer (h : EnvelopeBatcher.Reachable b) :
    b.pushed.map Prod.fst <+: b.scheduled.flatten ∧ b.pushed ⊆ b.filled ∧
      (∀ C : Crypto M, (∀ x ∈ b.filled, x.1 = C.canonicalizedHash x.2) →
        b.output.map C.canonicalizedHash <+: b.scheduled.flatten) ∧ ¬b.Stuck ∧
      ∀ cache, b.Supplied cache → (∃ b', b.Settles b') ∧
        ∀ b', b.Settles b' →
          OfflineSequencer.directlySequence ⟨b.scheduled, cache⟩ = .ok b'.output := by
  refine ⟨h.inv.isPrefix, h.inv.pushed, fun C hkeyed => ?_, h.inv.not_stuck,
    fun cache hsupply => ?_⟩
  · have houtput : b.output.map C.canonicalizedHash = b.pushed.map Prod.fst := by
      rw [EnvelopeBatcher.output, List.map_map]
      exact List.map_congr_left fun x hx => (hkeyed x (h.inv.pushed hx)).symm
    rw [houtput]
    exact h.inv.isPrefix
  refine ⟨b.exists_settles, fun b' hsettles => ?_⟩
  have hinv := (h.settles hsettles).inv
  have hsupply' := hsupply.settles hsettles
  have horder := hinv.order_of_blocked hsupply' hsettles.2
  have hscheduled := hsettles.frame.1
  refine directlySequence_eq_ok_iff.mpr ⟨hsupply.nodup, ?_⟩
  rw [hinv.map_output hsupply'.agrees, horder, hscheduled]

namespace EnvelopeBatcher

def run : List (SequencerEvent E) → EnvelopeBatcher E → Option (EnvelopeBatcher E)
  | [], s => some s
  | ev :: evs, s => (s.step ev).bind (run evs)

private theorem reachable_of_run {evs : List (SequencerEvent E)} (h : Reachable s)
    (hrun : run evs s = some s') : Reachable s' := by
  induction evs generalizing s with
  | nil => exact Option.some.inj hrun ▸ h
  | cons ev evs ih =>
    obtain ⟨s₁, hstep, hrest⟩ := Option.bind_eq_some_iff.mp hrun
    exact ih (Run.tail (e := ev) h trivial hstep) hrest

end EnvelopeBatcher

/-- Two envelopes of the small scheme, under their hashes. -/
def twoEnvelopes : List (CanonicalEnvelopeHash × Envelope ℕ) :=
  [(⟨1⟩, smallEnvelope 5 none 0 10 11 0), (⟨2⟩, smallEnvelope 6 none 0 20 21 1)]

/-- The second envelope arrives while the batcher waits for it. -/
def lateEnvelope : List (SequencerEvent (Envelope ℕ)) :=
  [.schedule [⟨1⟩, ⟨2⟩], .fill (twoEnvelopes.take 1), .notifyWaiters, .batcher, .batcher, .batcher,
    .batcher, .fill (twoEnvelopes.drop 1), .notifyWaiters]

def lateBatcher : EnvelopeBatcher (Envelope ℕ) :=
  (EnvelopeBatcher.run lateEnvelope .initial).get (by decide)

theorem online_sequencer_late : lateBatcher.phase = .waiting [⟨2⟩] 1 ∧
    lateBatcher.pushed.map Prod.fst <+: lateBatcher.scheduled.flatten ∧
    lateBatcher.Supplied twoEnvelopes ∧ (∃ b', lateBatcher.Settles b') ∧
      ∀ b', lateBatcher.Settles b' →
        OfflineSequencer.directlySequence ⟨lateBatcher.scheduled, twoEnvelopes⟩ = .ok b'.output := by
  have hreach : EnvelopeBatcher.Reachable lateBatcher :=
    EnvelopeBatcher.reachable_of_run .refl (Option.some_get _).symm
  have hsupply : lateBatcher.Supplied twoEnvelopes := by
    constructor <;> decide
  obtain ⟨hpre, _, _, _, hsettles⟩ := online_sequencer hreach
  exact ⟨by decide, hpre, hsupply, hsettles twoEnvelopes hsupply⟩

end

end

end JudicaVM
