import JudicaVM.Host.Rounds
import JudicaVM.Sequencer.Replica

/-!
# The host and its followers

Any number of nodes follow one host. Its envelopes reach them in any order and with any delay, its
task may crash and restart, and the others write what they like with their own keys.
-/

namespace JudicaVM

open Checked Transition

section

variable {J : Type} {C : Crypto J} {S : Signer C} {K : BroadcastCodec J}

private theorem normalizeHeights_hash (m : ℤ) (g : CanonicalEnvelopeHash)
    (queue : List ToSequence) :
    (normalizeHeights m g queue).map ToSequence.hash = queue.map ToSequence.hash := by
  induction queue generalizing m g with
  | nil => rfl
  | cons x rest ih =>
    rw [normalizeHeights]
    split
    · rw [List.map_cons, ih, List.map_cons]
    · rw [List.map_cons, ih, List.map_cons]

private theorem mem_schedule {shuffle : List ToSequence → List ToSequence} {queue : List ToSequence}
    (hshuffle : ∀ l, (shuffle l).Perm l) {h : CanonicalEnvelopeHash}
    (hmem : h ∈ schedule shuffle queue) : h ∈ queue.map ToSequence.hash := by
  cases queue with
  | nil => cases hmem
  | cons first rest =>
    rw [← normalizeHeights_hash first.height first.genesis]
    have hsorted := List.perm_insertionSort (fun a b : ToSequence => a.height ≤ b.height)
      (shuffle (normalizeHeights first.height first.genesis (first :: rest)))
    exact (hsorted.trans (hshuffle _)).map ToSequence.hash |>.subset hmem

/-- The queue holds hashes of envelopes only. -/
def Hashes (C : Crypto J) (queue : List ToSequence) : Prop :=
  ∀ x ∈ queue, ∃ e, C.canonicalizedHash e = x.hash

private theorem Hashes.sequenceHeight {g : CanonicalEnvelopeHash} {x y : Task J × List ToSequence}
    {k : ℤ}
    (hx : Hashes C x.2) (h : Task.sequenceHeight C g x k = .ok y) : Hashes C y.2 := by
  unfold Task.sequenceHeight at h
  split at h
  · cases h
  · rename_i e _
    cases h
    intro q hq
    obtain hq | hq := List.mem_append.mp hq
    · exact hx q hq
    · exact ⟨e, by rw [List.mem_singleton.mp hq]⟩

private theorem Hashes.sequenceGenesis {x y : Task J × List ToSequence} {g : CanonicalEnvelopeHash}
    (hx : Hashes C x.2) (h : Task.sequenceGenesis C x g = .ok y) : Hashes C y.2 := by
  unfold Task.sequenceGenesis at h
  simp only at h
  split at h
  · cases h
    exact hx
  · exact foldlM_invariant (P := fun x => Hashes C x.2) (fun _ _ _ hx h => hx.sequenceHeight h) hx h

private theorem Task.hashes_of_iterate {oracle : XOnlyPublicKey} {t t' : Task J} {ch : Choices C}
    {s : Store J} {batch : List CanonicalEnvelopeHash}
    (h : t.iterate C oracle ch s = .ok (t', batch)) :
    ∀ hash ∈ batch, ∃ e, C.canonicalizedHash e = hash := by
  unfold Task.iterate at h
  obtain ⟨t₁, _, h⟩ := bind_eq_ok_iff.mp h
  obtain ⟨⟨t₂, queue⟩, hqueue, h⟩ := bind_eq_ok_iff.mp h
  cases h
  have hhashes : Hashes C queue := foldlM_invariant (P := fun x => Hashes C x.2)
    (fun _ _ _ hx h => hx.sequenceGenesis h) (fun _ hx => by cases hx) hqueue
  intro hash hmem
  obtain ⟨x, hx, rfl⟩ := List.mem_map.mp (mem_schedule ch.shuffle_perm hmem)
  exact hhashes x hx

namespace Host

variable {h h' : Host J}

/-- The chain of the host holds what it has published, and it publishes hashes only. -/
structure Logged (C : Crypto J) (S : Signer C) (K : BroadcastCodec J) (h : Host J) : Prop where
  ready : h.store.Ready C S.key
  log : h.store.Log C K S.key h.published
  hashes : ∀ batch, h.phase = .publishing batch → ∀ hash ∈ batch, hash.digest < 2 ^ 256

private theorem Initial.logged (hinit : h.Initial S K)
    (hzero : ∀ e, C.canonicalizedHash e ≠ .genesis) :
    h.Logged C S K where
  ready := hinit.ready hzero
  log := hinit.log (hinit.ready hzero)
  hashes := fun batch hphase => by simp [hinit.phase] at hphase

private theorem Logged.of_phase (hh : h.Logged C S K) {phase : Phase}
    (hphase : ∀ batch, phase ≠ .publishing batch) (task : Task J) :
    Logged C S K { h with task, phase } :=
  ⟨hh.ready, hh.log, fun batch heq => absurd heq (hphase batch)⟩

private theorem Logged.publish (hh : h.Logged C S K) {p : Publication J}
    {batch : List CanonicalEnvelopeHash} (hphase : h.phase = .publishing batch)
    (htip : h.store.IsTip S.key p.tip) :
    (h.afterPublish batch (S.publish K h.store p batch)).Logged C S K ∧
      h.store.contents <+: (h.afterPublish batch (S.publish K h.store p batch)).store.contents := by
  have hstopped : Logged C S K { h with phase := .stopped none } := hh.of_phase (by simp) h.task
  cases hpublish : S.publish K h.store p batch with
  | none => exact ⟨hstopped, List.prefix_refl _⟩
  | some result =>
    obtain ⟨result, store⟩ := result
    cases result with
    | error fail =>
      cases fail with
      | constraintCheck => exact ⟨hstopped, List.prefix_refl _⟩
      | constraintNotNull => exact ⟨hstopped, List.prefix_refl _⟩
      | constraintUnique => exact ⟨hh, List.prefix_refl _⟩
    | ok =>
      obtain ⟨hready, hlog, _, hpre, _⟩ :=
        hh.log.publish hh.ready htip (hh.hashes batch hphase) hpublish
      exact ⟨⟨hready, hlog, fun _ heq => by cases heq⟩, hpre⟩

private theorem Logged.step [DecidableEq J] (hzero : ∀ e, C.canonicalizedHash e ≠ .genesis)
    (hbound : ∀ e, (C.canonicalizedHash e).digest < 2 ^ 256) (hh : h.Logged C S K)
    {ev : HostEvent C} (hstep : h.step S K ev = some h') :
    h'.Logged C S K ∧ h.store.contents <+: h'.store.contents := by
  cases ev with
  | store op =>
    simp only [Host.step] at hstep
    split_ifs at hstep with hop
    cases hstep
    obtain ⟨hready, _, hpre, _⟩ := hh.ready.apply hzero hop
    exact ⟨⟨hready, hh.log.apply hh.ready hzero hop, hh.hashes⟩, hpre⟩
  | addMember group genesis =>
    cases hstep
    have hmessages := Store.addMember_messages (s := h.store) group genesis
    refine ⟨⟨hh.ready.of_tables hmessages (Store.addMember_users group genesis),
      hh.log.of_tables hmessages, hh.hashes⟩, ?_⟩
    rw [Store.contents, Store.contents, hmessages]
  | iterate ch =>
    simp only [Host.step] at hstep
    split at hstep
    · cases hstep
      cases hiterate : h.task.iterate C S.key ch h.store with
      | error p => exact ⟨hh.of_phase (by simp) h.task, List.prefix_refl _⟩
      | ok result =>
        obtain ⟨t, batch⟩ := result
        refine ⟨⟨hh.ready, hh.log, ?_⟩, List.prefix_refl _⟩
        intro batch' hphase hash hmem
        have hphase : (if batch = [] then Phase.polling else .publishing batch) =
            .publishing batch' := hphase
        split at hphase
        · cases hphase
        · cases hphase
          obtain ⟨e, rfl⟩ := Task.hashes_of_iterate hiterate hash hmem
          exact hbound e
    · cases hstep
  | publish p =>
    simp only [Host.step] at hstep
    split at hstep
    next batch hphase =>
      split_ifs at hstep with htip
      cases hstep
      exact hh.publish hphase htip
    · cases hstep
  | crash =>
    cases hstep
    exact ⟨hh.of_phase (by simp) h.task, List.prefix_refl _⟩
  | load =>
    simp only [Host.step] at hstep
    split at hstep
    · split at hstep
      · cases hstep
        exact ⟨hh.of_phase (by simp) h.task, List.prefix_refl _⟩
      · cases hstep
        exact ⟨hh.of_phase (by simp) h.task, List.prefix_refl _⟩
    · cases hstep
  | recover =>
    simp only [Host.step] at hstep
    split at hstep
    · split at hstep
      next t _ =>
        cases hstep
        exact ⟨hh.of_phase (by simp) t, List.prefix_refl _⟩
      · cases hstep
        exact ⟨hh.of_phase (by simp) h.task, List.prefix_refl _⟩
    · cases hstep

/-- The chain of the host. -/
def chain (S : Signer C) (h : Host J) : List (CanonicalEnvelopeHash × Envelope J) :=
  h.store.own S.key

private theorem Logged.numbered (hh : h.Logged C S K) : Numbered (h.chain S) := by
  intro n c hc
  have hget := congrArg (·[n]?) hh.log.heights
  simp only [heightsFrom, List.getElem?_map] at hget
  have hc : (h.store.own S.key)[n]? = some c := hc
  rw [hc, Option.map_some, eq_comm, Option.map_eq_some_iff] at hget
  obtain ⟨m, hm, hheight⟩ := hget
  obtain ⟨_, hget⟩ := List.getElem?_eq_some_iff.mp hm
  rw [List.getElem_range] at hget
  omega

private theorem Logged.batches (hh : h.Logged C S K) :
    (h.chain S).filterMap K.batch? = h.published := by
  obtain ⟨ms, hms, hbatches⟩ := hh.log.decodes
  have hread : (h.chain S).map K.broadcast? = ms.map fun m => some m.data := by
    have hdata := congrArg (List.map (Option.map Channelized.data)) hms
    rwa [List.map_map, List.map_map] at hdata
  calc (h.chain S).filterMap K.batch?
      = ((h.chain S).map K.broadcast?).filterMap fun m => m.bind BroadcastByHost.batch? := by
        rw [List.filterMap_map]
        rfl
    _ = ms.filterMap fun m => m.data.batch? := by
        rw [hread, List.filterMap_map]
        rfl
    _ = h.published := hbatches

private theorem Logged.readable (hh : h.Logged C S K) :
    ∀ c ∈ h.chain S, (K.broadcast? c).isSome := by
  obtain ⟨ms, hms, _⟩ := hh.log.decodes
  intro c hc
  have hmem : K.decode c.2.msg ∈ ms.map some := hms ▸ List.mem_map_of_mem hc
  obtain ⟨m, _, hm⟩ := List.mem_map.mp hmem
  rw [BroadcastCodec.broadcast?, ← hm]
  rfl

end Host

/-- The host and the nodes that follow it. -/
structure Replication (ι J E : Type) where
  host : Host J
  replica : ι → Replica J E

inductive ReplicationEvent (ι : Type) {J : Type} (C : Crypto J)
  | host (ev : HostEvent C)
  | replica (i : ι) (ev : ReplicaEvent C)

namespace Replication

variable {ι E : Type} [DecidableEq ι] [DecidableEq J] (S K) (decode : Envelope J → Option E)
  (hash : E → CanonicalEnvelopeHash) (r : Replication ι J E)

def step : ReplicationEvent ι C → Option (Replication ι J E)
  | .host ev => (r.host.step S K ev).map fun host => { r with host }
  | .replica i ev =>
    ((r.replica i).step K decode hash S.key ev).map fun s =>
      { r with replica := Function.update r.replica i s }

/-- A node stores nothing under the key of the host but what the host has stored. -/
def Genuine : ReplicationEvent ι C → Prop
  | .host _ => True
  | .replica _ ev => Replica.Unforged S.key (r.host.chain S) ev

/-- The nodes start upon databases that hold at most the chain of the host under its key. -/
structure Initial : Prop where
  host : r.host.Initial S K
  replica : ∀ i, ∃ store hiddenServices, r.replica i = .initial store hiddenServices ∧
    Store.Reachable C store ∧ store.own S.key ⊆ r.host.chain S

def Reaches (r r' : Replication ι J E) : Prop :=
  Run (fun r (ev : ReplicationEvent ι C) r' => r.Genuine S ev ∧ r.step S K decode hash ev = some r')
    (fun _ => True) r r'

structure Agrees : Prop where
  host : r.host.Logged C S K
  replica : ∀ i, (r.replica i).Follows C K decode hash S.key (r.host.chain S)

variable {S K decode hash r} {r' : Replication ι J E}

omit [DecidableEq ι] in
private theorem Initial.agrees (hinit : r.Initial S K)
    (hzero : ∀ e, C.canonicalizedHash e ≠ .genesis) :
    r.Agrees S K decode hash where
  host := hinit.host.logged hzero
  replica i := by
    obtain ⟨store, hiddenServices, hreplica, hreach, hown⟩ := hinit.replica i
    rw [hreplica]
    exact .initial hreach hown hiddenServices

private theorem Agrees.step (hzero : ∀ e, C.canonicalizedHash e ≠ .genesis)
    (hbound : ∀ e, (C.canonicalizedHash e).digest < 2 ^ 256) (hr : r.Agrees S K decode hash)
    {ev : ReplicationEvent ι C} (hgenuine : r.Genuine S ev)
    (hstep : r.step S K decode hash ev = some r') : r'.Agrees S K decode hash := by
  cases ev with
  | host ev =>
    obtain ⟨h, hh, rfl⟩ := Option.map_eq_some_iff.mp hstep
    obtain ⟨hlogged, hpre⟩ := hr.host.step hzero hbound hh
    exact ⟨hlogged, fun i => (hr.replica i).extend (hpre.filter _)⟩
  | replica i ev =>
    obtain ⟨s, hs, rfl⟩ := Option.map_eq_some_iff.mp hstep
    refine ⟨hr.host, fun j => ?_⟩
    show (Function.update r.replica i s j).Follows C K decode hash S.key (r.host.chain S)
    by_cases hj : j = i
    · subst hj
      rw [Function.update_self]
      exact (hr.replica j).step hr.host.numbered hgenuine hs
    · rw [Function.update_of_ne hj]
      exact hr.replica j

private theorem Reaches.agrees (hzero : ∀ e, C.canonicalizedHash e ≠ .genesis)
    (hbound : ∀ e, (C.canonicalizedHash e).digest < 2 ^ 256) (hinit : r.Initial S K)
    (hrun : Reaches S K decode hash r r') : r'.Agrees S K decode hash :=
  hrun.invariant (fun _ _ _ _ hr hstep => hr.step hzero hbound hstep.1 hstep.2)
    (hinit.agrees hzero)

/-- Whatever the order in which envelopes arrive and however often the host's task restarts: every
node has sequenced a beginning of what the host has published, and of two nodes one has sequenced a
beginning of what the other has, when no two of their envelopes collide. -/
theorem replicas_agree (hzero : ∀ e, C.canonicalizedHash e ≠ .genesis)
    (hbound : ∀ e, (C.canonicalizedHash e).digest < 2 ^ 256) (hinit : r.Initial S K)
    (hrun : Reaches S K decode hash r r') (i j : ι)
    (hfree : ∀ e ∈ (r'.replica i).fetcher.store.contents,
      ∀ e' ∈ (r'.replica j).fetcher.store.contents, ∀ v v', decode e.2 = some v →
        decode e'.2 = some v' → hash v = hash v' → v = v') :
    (r'.replica i).fetcher.batcher.pushed.map Prod.fst <+: r'.host.published.flatten ∧
      ((r'.replica i).fetcher.batcher.output <+: (r'.replica j).fetcher.batcher.output ∨
        (r'.replica j).fetcher.batcher.output <+: (r'.replica i).fetcher.batcher.output) := by
  have hr := hrun.agrees hzero hbound hinit
  refine ⟨?_, (hr.replica i).agree (hr.replica j) hfree⟩
  rw [← hr.host.batches]
  exact (hr.replica i).pushed_isPrefix

private theorem run_replica {i : ι} {P : ReplicaEvent C → Prop} {s : Replica J E}
    (hP : ∀ ev, P ev → ∃ row, ev = .poll row)
    (hrun : Run (fun s (ev : ReplicaEvent C) s' => s.step K decode hash S.key ev = some s') P
      (r.replica i) s) :
    Reaches S K decode hash r { r with replica := Function.update r.replica i s } := by
  induction hrun with
  | refl =>
    rw [Function.update_eq_self]
    exact Run.refl
  | @tail s s' _ hstep ih =>
    obtain ⟨ev, hev, hstep⟩ := hstep
    obtain ⟨row, rfl⟩ := hP ev hev
    apply ih.tail (e := .replica i (.poll row)) trivial
    refine ⟨trivial, ?_⟩
    simp [Replication.step, hstep]

end Replication

end

/-- A message that is not a batch announces a peer. -/
def announcing : BroadcastCodec (Option (List CanonicalEnvelopeHash)) where
  decode
    | some batch => some ⟨.sequence batch, "default"⟩
    | none => some ⟨.newPeer ⟨"peer.onion", 80⟩, "default"⟩
  encode m := m.data.batch?
  decode_encode _ _ := rfl

private theorem tinyHost_announces : tinyHost.Initial tinySigner announcing where
  reachable := tinyHost_initial.reachable
  safe := tinyHost_initial.safe
  genesis := by
    have hrow : ∃ r ∈ tinyHost.store.messages, r.key = tinySigner.key ∧ r.height = 0 ∧
        r.body.msg = none ∧ ∀ r' ∈ tinyHost.store.messages, r'.key = tinySigner.key → r' = r := by
      decide +kernel
    obtain ⟨r, hr, hkey, h0, hmsg, hall⟩ := hrow
    exact ⟨r, hr, hkey, h0, ⟨⟨.newPeer ⟨"peer.onion", 80⟩, "default"⟩, by rw [hmsg]; rfl, rfl⟩, hall⟩
  phase := rfl
  published := rfl
  saved := rfl

/-- The host before its first iteration, a node that has stored what it has, and one that has not. -/
def tinyReplication : Replication Bool (Option (List CanonicalEnvelopeHash))
    (Envelope (Option (List CanonicalEnvelopeHash))) where
  host := tinyHost
  replica behind :=
    .initial (if behind then .empty else { tinyStore with groupMembers := [], groupSubscribers := [] })
      .empty

private theorem tinyReplication_initial : tinyReplication.Initial tinySigner announcing where
  host := tinyHost_announces
  replica behind := by
    refine ⟨_, _, rfl, ?_⟩
    cases behind
    · exact ⟨tinyHost_announces.reachable, List.Subset.refl _⟩
    · exact ⟨Run.refl, List.nil_subset _⟩

/-- The envelope in which the host publishes Bob's genesis and his first message. -/
def tinyBatch : Authenticated tinyCrypto :=
  ((tinySigner.batchEnvelope announcing (tinyPublication tinyTip 0 1)
    [tinyHash 6 0, tinyHash 6 1]).authenticate tinyCrypto).get (by decide +kernel)

/-- What the node that had nothing stores: the batch before its envelopes. -/
def behindOps : List (StoreOp tinyCrypto) :=
  [.insertUser "host" (tinyGenesis 7 0) 0, .insert tinyBatch false 0,
    .insertUser "bob" (tinyGenesis 6 0) 0, .insert (tinyLater 6 0 6 0 1) false 0]

def aheadStore : Store (Option (List CanonicalEnvelopeHash)) :=
  Store.apply { tinyStore with groupMembers := [], groupSubscribers := [] }
    (.insert tinyBatch false 0)

def behindStore : Store (Option (List CanonicalEnvelopeHash)) :=
  behindOps.foldl Store.apply .empty

/-- The host publishes a batch, and the nodes store it. -/
def tinyDelivery : List (ReplicationEvent Bool tinyCrypto) :=
  [.host (.store (.insert (tinyLater 6 0 6 0 1) false 0)), .host .load, .host .recover,
    .host (.iterate (inOrder _)), .host (.publish (tinyPublication tinyTip 0 1)),
    .replica false (.fetcher (.store (.insert tinyBatch false 0)))] ++
  behindOps.map fun op => .replica true (.fetcher (.store op))

/-- Both nodes poll the chain of the host and push what they have of the batch. -/
def tinyPolls : List (ReplicationEvent Bool tinyCrypto) :=
  [.replica false (.poll (aheadStore.rowByHash (tinyHash 7 0))),
    .replica false (.poll (aheadStore.rowByHash (tinyHash 7 1))),
    .replica false (.fetcher .check), .replica false (.fetcher (.fetch aheadStore.messages)),
    .replica true (.poll (behindStore.rowByHash (tinyHash 7 0))),
    .replica true (.poll (behindStore.rowByHash (tinyHash 7 1))),
    .replica true (.fetcher .check), .replica true (.fetcher (.fetch behindStore.messages))] ++
  List.replicate 4 (.replica false (.fetcher .batcher)) ++
  List.replicate 5 (.replica true (.fetcher .batcher))

namespace Replication

section

variable {ι J E : Type} [DecidableEq ι] [DecidableEq J] {C : Crypto J}

instance (S : Signer C) (r : Replication ι J E) (ev : ReplicationEvent ι C) :
    Decidable (r.Genuine S ev) :=
  match ev with
  | .host _ => isTrue trivial
  | .replica _ (.fetcher (.store op)) =>
    inferInstanceAs (Decidable (∀ e ∈ op.envelope, e.inner.header.key = S.key →
      e.entry ∈ r.host.chain S))
  | .replica _ (.poll _) => isTrue trivial
  | .replica _ (.upsert ..) => isTrue trivial
  | .replica _ (.fetcher (.addMember ..)) => isTrue trivial
  | .replica _ (.fetcher (.schedule _)) => isTrue trivial
  | .replica _ (.fetcher .shutdown) => isTrue trivial
  | .replica _ (.fetcher .batcher) => isTrue trivial
  | .replica _ (.fetcher .check) => isTrue trivial
  | .replica _ (.fetcher (.fetch _)) => isTrue trivial
  | .replica _ (.fetcher .notifyWaiters) => isTrue trivial

/-- The state after some events that are all genuine and possible. -/
def after (S : Signer C) (K : BroadcastCodec J) (decode : Envelope J → Option E)
    (hash : E → CanonicalEnvelopeHash) (r : Replication ι J E)
    (evs : List (ReplicationEvent ι C)) : Option (Replication ι J E) :=
  evs.foldlM (fun r ev => if r.Genuine S ev then r.step S K decode hash ev else none) r

private theorem reaches_of_after {S : Signer C} {K : BroadcastCodec J}
    {decode : Envelope J → Option E}
    {hash : E → CanonicalEnvelopeHash} {r r' : Replication ι J E}
    {evs : List (ReplicationEvent ι C)} (h : r.after S K decode hash evs = some r') :
    Reaches S K decode hash r r' := by
  refine (Run.of_foldlM (fun _ _ => trivial) h).of_step ?_
  intro r ev r' hstep
  split_ifs at hstep with hgenuine
  exact ⟨hgenuine, hstep⟩

end

private theorem tinyDelivery_occurs : (tinyReplication.after tinySigner announcing some
    tinyCrypto.canonicalizedHash tinyDelivery).isSome := by
  decide +kernel

/-- The nodes have stored the chain of the host and have not polled yet. -/
def delivered : Replication Bool (Option (List CanonicalEnvelopeHash))
    (Envelope (Option (List CanonicalEnvelopeHash))) :=
  (tinyReplication.after tinySigner announcing some tinyCrypto.canonicalizedHash
    tinyDelivery).get tinyDelivery_occurs

private theorem delivered_reached : Reaches tinySigner announcing some tinyCrypto.canonicalizedHash
    tinyReplication delivered :=
  reaches_of_after (Option.some_get tinyDelivery_occurs).symm

private theorem tinyPolls_occur : (delivered.after tinySigner announcing some
    tinyCrypto.canonicalizedHash tinyPolls).isSome := by
  decide +kernel

def polled : Replication Bool (Option (List CanonicalEnvelopeHash))
    (Envelope (Option (List CanonicalEnvelopeHash))) :=
  (delivered.after tinySigner announcing some tinyCrypto.canonicalizedHash
    tinyPolls).get tinyPolls_occur

private theorem polled_reached : Reaches tinySigner announcing some tinyCrypto.canonicalizedHash
    tinyReplication polled :=
  delivered_reached.trans (reaches_of_after (Option.some_get tinyPolls_occur).symm)

/-- One node has pushed the first envelope of the batch and lacks the second, and the other has
pushed both. -/
theorem replicas_agree_polled :
    ((polled.replica false).fetcher.batcher.pushed.map Prod.fst = [tinyHash 6 0] ∧
      (polled.replica true).fetcher.batcher.pushed.map Prod.fst = [tinyHash 6 0, tinyHash 6 1]) ∧
    (polled.replica true).fetcher.batcher.pushed.map Prod.fst <+: polled.host.published.flatten ∧
      ((polled.replica true).fetcher.batcher.output <+:
          (polled.replica false).fetcher.batcher.output ∨
        (polled.replica false).fetcher.batcher.output <+:
          (polled.replica true).fetcher.batcher.output) := by
  have hfree : ∀ e ∈ (polled.replica true).fetcher.store.contents,
      ∀ e' ∈ (polled.replica false).fetcher.store.contents,
        tinyCrypto.canonicalizedHash e.2 = tinyCrypto.canonicalizedHash e'.2 → e.2 = e'.2 := by
    decide +kernel
  refine ⟨by decide +kernel, ?_⟩
  apply replicas_agree tinyCrypto_ne_genesis tinyCrypto_lt tinyReplication_initial polled_reached
  intro e he e' he' v v' hv hv'
  obtain rfl := Option.some.inj hv
  obtain rfl := Option.some.inj hv'
  exact hfree e he e' he'

end Replication

end JudicaVM
