import JudicaVM.Sequencer.Generic
import JudicaVM.Sequencer.Polling

/-!
# The task that fills the cache

The fetcher polls the store and fills the cache of the batcher under its lock. It notifies the
batcher after a poll that has moved its cursor.
-/

namespace JudicaVM

open Transition

section

variable {J E : Type}

/-- What the rows of a poll put into the cache. -/
def fetchedEntries (decode : Envelope J → Option E) (hash : E → CanonicalEnvelopeHash)
    (rows : List (Row J)) : List (CanonicalEnvelopeHash × E) :=
  rows.filterMap fun r => (decode r.body).map fun v => (hash v, v)

/-- Where the fetcher is: it looks for a shutdown, awaits the lock of the cache, notifies the batcher
after a poll or before it returns, or it has returned. -/
inductive Fetching
  | checking
  | locking
  | notifying
  | leaving
  | returned
  deriving DecidableEq

/-- The database, the cursor of the fetcher and where it is, and the batcher that it serves. -/
structure OnlineDBFetcher (J E : Type) where
  store : Store J
  newer : Option ℕ
  phase : Fetching
  batcher : EnvelopeBatcher E

inductive FetcherEvent {J : Type} (C : Crypto J)
  | store (op : StoreOp C)
  | addMember (group : ℕ) (genesis : CanonicalEnvelopeHash)
  | schedule (batch : List CanonicalEnvelopeHash)
  | shutdown
  | batcher
  | check
  | fetch (rows : List (Row J))
  | notifyWaiters

namespace OnlineDBFetcher

variable {C : Crypto J} (decode : Envelope J → Option E) (hash : E → CanonicalEnvelopeHash)
  (s : OnlineDBFetcher J E)

/-- The reader of the fetcher. -/
def cursor : Cursor E where
  newer := s.newer
  map := s.batcher.msgCache

/-- The cursor and the map after a poll. -/
def fetched (rows : List (Row J)) : Cursor E :=
  ((Reader.all true).collect decode hash rows s.cursor).2

/-- The rows are those that the query of the fetcher returns. -/
def Returns (rows : List (Row J)) : Prop :=
  rows ⊆ (Reader.all true).query s.store s.cursor ∧
    (Reader.all true).query s.store s.cursor ⊆ rows

instance [DecidableEq J] (rows : List (Row J)) : Decidable (s.Returns rows) :=
  inferInstanceAs (Decidable (_ ∧ _))

/-- The event of the batcher, which takes the place of the one before. -/
def serve (ev : SequencerEvent E) (phase : Fetching) : Option (OnlineDBFetcher J E) :=
  (s.batcher.step ev).map fun batcher => { s with phase, batcher }

def step [DecidableEq J] : FetcherEvent C → Option (OnlineDBFetcher J E)
  | .store op => some { s with store := s.store.apply op }
  | .addMember group genesis =>
    some { s with store := s.store.addMemberToChainCommitGroup group genesis }
  | .schedule batch => s.serve (.schedule batch) s.phase
  | .shutdown => s.serve .shutdown s.phase
  | .batcher => s.serve .batcher s.phase
  | .check =>
    if s.phase = .checking then
      some { s with phase := if s.batcher.shutdown then .leaving else .locking }
    else none
  | .fetch rows =>
    if s.phase = .locking ∧ s.Returns rows then
      let newer := (s.fetched decode hash rows).newer
      let phase := if s.newer ≠ newer then .notifying else .checking
      (s.serve (.fill (fetchedEntries decode hash rows)) phase).map fun s => { s with newer }
    else none
  | .notifyWaiters =>
    match s.phase with
    | .notifying => s.serve .notifyWaiters .checking
    | .leaving => s.serve .notifyWaiters .returned
    | _ => none

/-- The fetcher starts upon a store. -/
def initial (store : Store J) : OnlineDBFetcher J E where
  store
  newer := none
  phase := .checking
  batcher := .initial

/-- The states that are reached under any interleaving. -/
def Reaches [DecidableEq J] (C : Crypto J) (store : Store J) : OnlineDBFetcher J E → Prop :=
  Run (fun s (ev : FetcherEvent C) s' => s.step decode hash ev = some s') (fun _ => True)
    (initial store)

end OnlineDBFetcher

variable {C : Crypto J} {decode : Envelope J → Option E} {hash : E → CanonicalEnvelopeHash}
  {s s' : OnlineDBFetcher J E} {rows : List (Row J)} {c : Cursor E}

namespace Reader

theorem collect_map : ((Reader.all true).collect decode hash rows c).2.map =
    fillCache c.map (fetchedEntries decode hash rows) := by
  induction rows generalizing c with
  | nil => rfl
  | cons r rest ih =>
    unfold collect fetchedEntries
    cases hv : decode r.body with
    | none =>
      simp only [List.filterMap_cons, hv, Option.map_none]
      exact ih
    | some v =>
      simp only [List.filterMap_cons, hv, Option.map_some]
      exact ih

private theorem collect_cons (r : Row J) : ∃ c' : Cursor E,
    c'.newer = some (max (c.newer.getD 0) r.messageId) ∧
      (Reader.all true).collect decode hash (r :: rows) c =
        (Reader.all true).collect decode hash rows c' := by
  cases hv : decode r.body with
  | none => exact ⟨c.advance r.messageId, rfl, by simp only [collect, hv]⟩
  | some v => exact ⟨(c.insert hash v).advance r.messageId, rfl, by simp only [collect, hv]⟩

private theorem le_collect_newer {n : ℕ} (hn : n ∈ c.newer) :
    ∃ m ∈ ((Reader.all true).collect decode hash rows c).2.newer, n ≤ m := by
  induction rows generalizing c n with
  | nil => exact ⟨n, hn, Nat.le_refl n⟩
  | cons r rest ih =>
    obtain ⟨c', hc', heq⟩ := @collect_cons _ _ decode hash rest c r
    obtain ⟨m, hm, hle⟩ := ih (c := c') hc'
    rw [heq]
    refine ⟨m, hm, le_trans ?_ hle⟩
    rw [Option.mem_def.mp hn]
    exact Nat.le_max_left _ _

private theorem collect_passed {r : Row J} (hr : r ∈ rows) :
    ((Reader.all true).collect decode hash rows c).2.Passed r := by
  induction rows generalizing c with
  | nil => cases hr
  | cons r' rest ih =>
    obtain ⟨c', hc', heq⟩ := @collect_cons _ _ decode hash rest c r'
    rw [heq]
    rcases List.mem_cons.mp hr with rfl | hmem
    · obtain ⟨m, hm, hle⟩ := le_collect_newer (c := c') hc'
      exact ⟨m, hm, (Nat.le_max_right _ _).trans hle⟩
    · exact ih hmem

end Reader

namespace OnlineDBFetcher

/-- The cache was filled with what the fetcher has passed, and a notification is due only between a
poll and the notification that follows. -/
structure Supplies (decode : Envelope J → Option E) (hash : E → CanonicalEnvelopeHash)
    (s : OnlineDBFetcher J E) : Prop where
  reachable : EnvelopeBatcher.Reachable s.batcher
  linked : s.store.Linked
  newer_le : ∀ n ∈ s.newer, n ≤ s.store.messages.length
  filled : ∀ r ∈ s.store.messages, s.cursor.Passed r → ∀ v, decode r.body = some v →
    (hash v, v) ∈ s.batcher.filled
  stored : ∀ x ∈ s.batcher.filled, ∃ e ∈ s.store.contents, decode e.2 = some x.2 ∧
    hash x.2 = x.1
  due : s.batcher.due = 0 ∨ s.phase = .notifying ∧ s.batcher.due = 1

theorem serve_eq_some_iff {ev : SequencerEvent E} {phase : Fetching} :
    s.serve ev phase = some s' ↔ ∃ b, s.batcher.step ev = some b ∧
      s' = { s with phase, batcher := b } := by
  simp [serve, eq_comm]

theorem Supplies.serve (hs : s.Supplies decode hash) {ev : SequencerEvent E}
    (hfill : ∀ entries, ev ≠ .fill entries) (hnotify : ev ≠ .notifyWaiters)
    (hstep : s.serve ev s.phase = some s') : s'.Supplies decode hash := by
  obtain ⟨b, hb, rfl⟩ := serve_eq_some_iff.mp hstep
  have hframe : b.filled = s.batcher.filled ∧ b.due = s.batcher.due := by
    cases ev with
    | schedule batch =>
      unfold EnvelopeBatcher.step at hb
      split_ifs at hb
      obtain rfl := Option.some.inj hb
      exact ⟨rfl, rfl⟩
    | close =>
      obtain rfl := Option.some.inj hb
      exact ⟨rfl, rfl⟩
    | fill entries => exact absurd rfl (hfill entries)
    | notifyWaiters => exact absurd rfl hnotify
    | shutdown =>
      obtain rfl := Option.some.inj hb
      exact ⟨rfl, rfl⟩
    | batcher =>
      obtain ⟨_, hfilled, hdue, _⟩ := EnvelopeBatcher.batcherStep_frame hb
      exact ⟨hfilled, hdue⟩
  refine ⟨Run.tail (e := ev) hs.reachable trivial hb, hs.linked, hs.newer_le, ?_, ?_, ?_⟩
  · show ∀ r ∈ s.store.messages, s.cursor.Passed r → ∀ v, decode r.body = some v →
      (hash v, v) ∈ b.filled
    rw [hframe.1]
    exact hs.filled
  · show ∀ x ∈ b.filled, ∃ e ∈ s.store.contents, decode e.2 = some x.2 ∧
    hash x.2 = x.1
    rw [hframe.1]
    exact hs.stored
  · show b.due = 0 ∨ s.phase = .notifying ∧ b.due = 1
    rw [hframe.2]
    exact hs.due

private theorem Supplies.change {store : Store J} (hs : s.Supplies decode hash)
    (hgrows : s.store.Grows store)
    (hpre : s.store.contents <+: store.contents) (hlinked : store.Linked) :
    Supplies decode hash { s with store } := by
  refine ⟨hs.reachable, hlinked, fun n hn => (hs.newer_le n hn).trans hgrows.length, ?_, ?_, hs.due⟩
  · intro r hr hpassed v hv
    obtain ⟨n, hn, hle⟩ := hpassed
    have hbound := hs.newer_le n hn
    rcases hgrows.rows r hr with hlater | ⟨r', hr', hid, hbody⟩
    · omega
    · rw [← hbody] at hv
      rw [← hid] at hle
      exact hs.filled r' hr' ⟨n, hn, hle⟩ v hv
  · intro x hx
    obtain ⟨e, he, hdecode⟩ := hs.stored x hx
    exact ⟨e, hpre.subset he, hdecode⟩

theorem mem_fetchedEntries {x : CanonicalEnvelopeHash × E} :
    x ∈ fetchedEntries decode hash rows ↔
      ∃ r ∈ rows, decode r.body = some x.2 ∧ hash x.2 = x.1 := by
  simp only [fetchedEntries, List.mem_filterMap, Option.map_eq_some_iff]
  constructor
  · rintro ⟨r, hr, v, hv, rfl⟩
    exact ⟨r, hr, hv, rfl⟩
  · rintro ⟨r, hr, hv, hhash⟩
    exact ⟨r, hr, x.2, hv, by rw [hhash]⟩

private theorem newer_ne_of_fetched (hrows : s.Returns rows) (hne : rows ≠ []) :
    s.newer ≠ (s.fetched decode hash rows).newer := by
  intro heq
  obtain ⟨r, hr⟩ := List.exists_mem_of_ne_nil rows hne
  obtain ⟨n, hn, hle⟩ : (s.fetched decode hash rows).Passed r := Reader.collect_passed hr
  have hquery := hrows.1 hr
  simp only [Reader.query, List.mem_filter, Bool.and_eq_true, decide_eq_true_eq] at hquery
  rw [← heq] at hn
  exact hquery.2.2 ⟨n, hn, hle⟩

private theorem Supplies.fetch (hs : s.Supplies decode hash) (hphase : s.phase = .locking)
    (hrows : s.Returns rows) {b : EnvelopeBatcher E}
    (hb : s.batcher.step (.fill (fetchedEntries decode hash rows)) = some b) :
    Supplies decode hash { s with
      newer := (s.fetched decode hash rows).newer
      phase := if s.newer ≠ (s.fetched decode hash rows).newer then .notifying else .checking
      batcher := b } := by
  have hdue : s.batcher.due = 0 := by
    refine hs.due.resolve_right fun h => ?_
    rw [hphase] at h
    exact absurd h.1 (by decide)
  have hframe : b.filled = s.batcher.filled ++ fetchedEntries decode hash rows ∧
      b.due = if fetchedEntries decode hash rows = [] then 0 else 1 := by
    simp only [EnvelopeBatcher.step] at hb
    split at hb
    · cases hb
    · obtain rfl := Option.some.inj hb
      simp [hdue]
  have hquery : ∀ r ∈ rows, r ∈ s.store.messages :=
    fun r hr => (List.mem_filter.mp (hrows.1 hr)).1
  refine ⟨Run.tail (e := .fill _) hs.reachable trivial hb, hs.linked, ?_, ?_, ?_, ?_⟩
  · apply Reader.collect_newer_le hs.newer_le
    exact fun r hr => hs.linked.messageId_le (hquery r hr)
  · intro r hr _ v hv
    show (hash v, v) ∈ b.filled
    rw [hframe.1]
    by_cases hpassed : s.cursor.Passed r
    · exact List.mem_append_left _ (hs.filled r hr hpassed v hv)
    · have hmem : r ∈ rows := by
        apply hrows.2
        simp only [Reader.query, List.mem_filter, Bool.and_eq_true, decide_eq_true_eq]
        exact ⟨hr, rfl, hpassed⟩
      exact List.mem_append_right _ (mem_fetchedEntries.mpr ⟨r, hmem, hv, rfl⟩)
  · show ∀ x ∈ b.filled, _
    rw [hframe.1]
    intro x hx
    rcases List.mem_append.mp hx with hold | hnew
    · exact hs.stored x hold
    · obtain ⟨r, hr, hv, hhash⟩ := mem_fetchedEntries.mp hnew
      exact ⟨_, Store.mem_contents (hquery r hr), hv, hhash⟩
  · show b.due = 0 ∨ _ ∧ b.due = 1
    rw [hframe.2]
    by_cases hempty : fetchedEntries decode hash rows = []
    · exact .inl (if_pos hempty)
    · have hne : rows ≠ [] := by
        rintro rfl
        exact hempty rfl
      exact .inr ⟨if_pos (newer_ne_of_fetched hrows hne), if_neg hempty⟩

private theorem Supplies.notifyWaiters (hs : s.Supplies decode hash) {phase : Fetching}
    (hstep : s.serve .notifyWaiters phase = some s') : s'.Supplies decode hash := by
  obtain ⟨b, hb, rfl⟩ := serve_eq_some_iff.mp hstep
  have hreach := Run.tail (e := .notifyWaiters) hs.reachable trivial hb
  obtain rfl := Option.some.inj hb
  refine ⟨hreach, hs.linked, hs.newer_le, hs.filled, hs.stored, .inl ?_⟩
  show s.batcher.due - 1 = 0
  rcases hs.due with hdue | ⟨_, hdue⟩
  · rw [hdue]
  · rw [hdue]

theorem Supplies.step [DecidableEq J] (hs : s.Supplies decode hash) {ev : FetcherEvent C}
    (hstep : s.step decode hash ev = some s') : s'.Supplies decode hash := by
  cases ev with
  | store op =>
    obtain rfl := Option.some.inj hstep
    exact hs.change (.apply op) (Store.prefix_apply op) (hs.linked.apply op)
  | addMember group genesis =>
    obtain rfl := Option.some.inj hstep
    have hmessages := Store.addMember_messages (s := s.store) group genesis
    exact hs.change (.of_messages hmessages) (by simp [Store.contents, hmessages])
      (hs.linked.of_messages hmessages)
  | schedule batch => exact hs.serve (by simp) (by simp) hstep
  | shutdown => exact hs.serve (by simp) (by simp) hstep
  | batcher => exact hs.serve (by simp) (by simp) hstep
  | check =>
    simp only [OnlineDBFetcher.step, Option.ite_none_right_eq_some, Option.some.injEq] at hstep
    obtain ⟨hphase, rfl⟩ := hstep
    refine ⟨hs.reachable, hs.linked, hs.newer_le, hs.filled, hs.stored, .inl ?_⟩
    refine hs.due.resolve_right fun h => ?_
    rw [hphase] at h
    exact absurd h.1 (by decide)
  | fetch rows =>
    simp only [OnlineDBFetcher.step, Option.ite_none_right_eq_some] at hstep
    obtain ⟨hrows, hstep⟩ := hstep
    obtain ⟨s₁, hserve, rfl⟩ := Option.map_eq_some_iff.mp hstep
    obtain ⟨b, hb, rfl⟩ := serve_eq_some_iff.mp hserve
    exact hs.fetch hrows.1 hrows.2 hb
  | notifyWaiters =>
    simp only [OnlineDBFetcher.step] at hstep
    split at hstep
    · exact hs.notifyWaiters hstep
    · exact hs.notifyWaiters hstep
    · cases hstep

theorem Reaches.supplies [DecidableEq J] {store : Store J} (hlinked : store.Linked)
    (h : Reaches decode hash C store s) : s.Supplies decode hash := by
  have hinitial : (initial store : OnlineDBFetcher J E).Supplies decode hash := by
    have hnewer : ∀ n ∈ (initial store : OnlineDBFetcher J E).newer, False := by
      intro n hn
      cases hn
    constructor
    · exact .refl
    · exact hlinked
    · exact fun n hn => (hnewer n hn).elim
    · intro r _ hpassed
      obtain ⟨n, hn, _⟩ := hpassed
      exact (hnewer n hn).elim
    · intro x hx
      cases hx
    · exact .inl rfl
  exact Run.invariant (fun _ _ _ _ hs hstep => hs.step hstep) h hinitial

/-- When distinct hashes are scheduled under which the fetcher has passed envelopes that it can decode,
no two of one hash, then the batcher pushes them all, in order. -/
theorem Reaches.pushes_all [DecidableEq J] {store : Store J} (hlinked : store.Linked)
    (h : Reaches decode hash C store s) (hphase : s.phase ≠ .notifying)
    (hrunning : s.batcher.shutdown = false) (hnodup : s.batcher.scheduled.flatten.Nodup)
    (hpassed : ∀ h ∈ s.batcher.scheduled.flatten, ∃ r ∈ s.store.messages, s.cursor.Passed r ∧
      ∃ v, decode r.body = some v ∧ hash v = h)
    (hfree : ∀ e ∈ s.store.contents, ∀ e' ∈ s.store.contents, ∀ v v', decode e.2 = some v →
      decode e'.2 = some v' → hash v = hash v' → v = v') :
    (∃ b, s.batcher.Settles b) ∧ ∀ b, s.batcher.Settles b →
      b.pushed.map Prod.fst = s.batcher.scheduled.flatten := by
  have hs := h.supplies hlinked
  have hsupplied : s.batcher.Supplied s.batcher.filled := by
    refine ⟨hnodup, fun h hh => ?_, fun x hx => ?_, ?_, hrunning⟩
    · obtain ⟨r, hr, hpassed, v, hv, rfl⟩ := hpassed h hh
      exact List.mem_map_of_mem (hs.filled r hr hpassed v hv)
    · have hsome : (s.batcher.filled.lookup x.1).isSome := by
        rw [List.lookup_isSome_iff]
        exact ⟨x, hx, by simp⟩
      obtain ⟨v, hv⟩ := Option.isSome_iff_exists.mp hsome
      obtain ⟨l₁, l₂, heq, _⟩ := List.lookup_eq_some_iff.mp hv
      have hmem : (x.1, v) ∈ s.batcher.filled := by simp [heq]
      obtain ⟨e, he, hdecode, hhash⟩ := hs.stored x hx
      obtain ⟨e', he', hdecode', hhash'⟩ := hs.stored _ hmem
      have heq : v = x.2 := hfree e' he' e he v x.2 hdecode' hdecode (hhash'.trans hhash.symm)
      rw [hv, heq]
    · exact hs.due.resolve_right fun h => hphase h.1
  refine ⟨s.batcher.exists_settles, fun b hsettles => ?_⟩
  have hinv := (hs.reachable.settles hsettles).inv
  rw [hinv.order_of_blocked (hsupplied.settles hsettles) hsettles.2, hsettles.frame.1]

end OnlineDBFetcher

end

end JudicaVM
