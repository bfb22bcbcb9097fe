import JudicaVM.Host.Run

/-!
# Rounds of the host

As long as the selection among the rows that the host has passed is steady, every batch takes each
chain of its groups as far as it is stored, and the chains take turns.
-/

namespace JudicaVM

open Transition Checked

section

variable {J : Type} {C : Crypto J} {S : Signer C} {K : BroadcastCodec J} {s s' : Store J}
  {t t' : Task J} {key : XOnlyPublicKey} {done batch : List (Envelope J)} {e : Envelope J}
  {published : List (List CanonicalEnvelopeHash)}

/-- Sequenced envelopes are stored, and every chain is sequenced from height 0 on without a gap. -/
structure Store.Sequenced (C : Crypto J) (s : Store J) (done : List (Envelope J)) : Prop where
  gapless : Gapless C done
  nodup : done.Nodup
  stored : ∀ e ∈ done, ∃ r ∈ s.messages, r.body = e

theorem Store.Sequenced.mono (h : s.Sequenced C done) (hpre : s.contents <+: s'.contents) :
    s'.Sequenced C done := by
  refine ⟨h.gapless, h.nodup, ?_⟩
  intro e he
  obtain ⟨r, hr, rfl⟩ := h.stored e he
  obtain ⟨r', hr', heq⟩ := List.mem_map.mp (hpre.subset (Store.mem_contents hr))
  exact ⟨r', hr', (Prod.mk.inj heq).2⟩

theorem Store.Sequenced.selected_of_hashes (h : s.Sequenced C done) (hs : s.Ready C key)
    (hall : ∀ hash ∈ done.map C.canonicalizedHash, ∃ r ∈ s.messages, r.hash = hash ∧
      s.selects key r) : ∀ e ∈ done, e ∈ s.selected key := by
  intro e he
  obtain ⟨r, hr, hhash, hselects⟩ := hall _ (List.mem_map_of_mem he)
  obtain ⟨r', hr', rfl⟩ := h.stored e he
  rw [← hs.sourced.hash_eq hr'] at hhash
  rw [← hs.linked.eq_of_hash hr hr' hhash]
  exact Store.mem_selected.mpr ⟨r, hr, hselects, rfl⟩

private theorem Store.selected_nodup (hs : s.Linked) (hsourced : s.Sourced C) :
    (s.selected key).Nodup :=
  (Store.hashes_nodup hs hsourced).of_map

theorem Store.Ready.eq_of_body (hs : s.Ready C key) {r r' : Row J} (hr : r ∈ s.messages)
    (hr' : r' ∈ s.messages) (hbody : r.body = r'.body) : r = r' := by
  apply hs.linked.eq_of_hash hr hr'
  rw [hs.sourced.hash_eq hr, hs.sourced.hash_eq hr', hbody]

theorem Store.Ready.selectedUpTo_nodup (hs : s.Ready C key) (n : ℕ) :
    (s.selectedUpTo key n).Nodup := by
  have hmessages : s.messages.Nodup := hs.linked.hashes.of_map
  apply List.Nodup.map_on _ (hmessages.filter _)
  intro r hr r' hr' hbody
  exact hs.eq_of_body (List.mem_filter.mp hr).1 (List.mem_filter.mp hr').1 hbody

theorem Task.Tracks.sequenced (h : t.Tracks C key s done) (hs : s.Ready C key) :
    s.Sequenced C done := by
  refine ⟨h.gapless, ?_, ?_⟩
  · have hall := h.perm.nodup_iff.mpr (hs.selectedUpTo_nodup t.seq)
    exact (List.nodup_append.mp hall).2.1
  · intro e he
    obtain ⟨r, hr, _, hbody⟩ := Store.mem_selected.mp (h.done_subset he)
    exact ⟨r, hr, hbody⟩

private theorem Store.Playable.selected_others (hp : s.Playable C key) (hs : s.Ready C key)
    (hlog : s.Log C K key published) :
    ∀ r ∈ s.messages, s.selects key r → r.key ≠ key := by
  intro r hr hselects hkey
  obtain ⟨g, hg, hgkey, hlinks⟩ := hlog.links
  simp only [Store.selects, List.any_eq_true, Bool.and_eq_true, Bool.or_eq_true,
    decide_eq_true_eq] at hselects
  obtain ⟨m, hm, hgroup, hrow⟩ := hselects
  cases hrow with
  | inl hrow => exact hp.others m hm hgroup r hr hrow.symm hkey
  | inr hrow =>
    by_cases h0 : r.height = 0
    · rw [hs.straight.genesis r hr h0] at hrow
      cases hrow
    · rw [(hlinks r hr hkey).2 h0] at hrow
      exact hp.others m hm hgroup g hg (Option.some.inj hrow) hgkey

namespace Task.Tracks

theorem iterate (h : t.Tracks C key s done) (hs : s.Ready C key) (hp : s.Playable C key)
    (hlog : s.Log C K key published) (ch : Choices C) :
    (t.fetch C key s).Orderly C key ∧ ∃ t' batch, (t.fetch C key s).Emits C t' batch ∧
      t.iterate C key ch s = .ok (t', batch.map C.canonicalizedHash) ∧
      t'.Tracks C key s (done ++ batch) := by
  have hfetch := h.fetch hs.linked hs.sourced
  have horderly := hfetch.orderly hs.linked hp (hp.selected_others hs hlog) hs.bounded fetch_selected
  obtain ⟨t', batch, hemits, hiterate⟩ := iterate_eq ch horderly
  exact ⟨horderly, t', batch, hemits, hiterate, hfetch.emits hemits⟩

end Task.Tracks

/-- How many envelopes of its chain come before an envelope in the batch that follows `done`. -/
def Envelope.turn (C : Crypto J) (done : List (Envelope J)) (e : Envelope J) : ℤ :=
  e.rank (fun g => (done.countP fun m => m.getGenesisHash C = g : ℕ)) C

/-- A batch takes every chain as far as it is stored without a gap, and the chains take turns. -/
structure FairBatch (C : Crypto J) (key : XOnlyPublicKey) (s : Store J)
    (done batch : List (Envelope J)) : Prop where
  complete : ∀ e, e ∈ batch ↔ e ∈ s.selected key ∧ e ∉ done ∧ ∀ k, 0 ≤ k →
    k < e.header.height → (e.getGenesisHash C, k) ∈ (s.selected key).map (Envelope.slot C)
  nodup : batch.Nodup
  heights : Gapless C (done ++ batch)
  turns : ∀ (i j : ℕ) (a b : Envelope J), batch[i]? = some a → batch[j]? = some b →
    a.turn C done < b.turn C done → i < j

private theorem Task.Tracks.next_eq (h : t.Tracks C key s done) (g : CanonicalEnvelopeHash) :
    t.nextHeightToSequence g = (done.countP fun m => m.getGenesisHash C = g : ℕ) := by
  have hlength := congrArg List.length (h.heights g)
  rw [List.length_map, ← List.countP_eq_length_filter] at hlength
  have hpos := h.next_nonneg g
  rw [hlength]
  simp [heightsFrom, hpos]

private theorem Task.Tracks.fairBatch (h : t.Tracks C key s done) (hs : s.Ready C key)
    (hselected : s.selectedUpTo key t.seq = s.selected key) (horderly : t.Orderly C key)
    (hemits : t.Emits C t' batch) : FairBatch C key s done batch := by
  have hperm := h.perm
  rw [hselected] at hperm
  have hnodup : (t.pending ++ done).Nodup :=
    hperm.nodup_iff.mpr (Store.selected_nodup hs.linked hs.sourced)
  have hslot (x : CanonicalEnvelopeHash × ℤ) : x ∈ (s.selected key).map (Envelope.slot C) ↔
      x ∈ t.pending.map (Envelope.slot C) ∨ x ∈ done.map (Envelope.slot C) := by
    rw [← (hperm.map _).mem_iff, List.map_append, List.mem_append]
  have hbatch := (List.nodup_append.mp (hemits.perm.nodup_iff.mpr (List.nodup_append.mp hnodup).1)).1
  constructor
  · intro e
    rw [hemits.mem_iff horderly]
    constructor
    · intro he
      obtain ⟨he, hrun⟩ := he
      refine ⟨h.pending_subset he, ?_, ?_⟩
      · exact fun hdone => (List.nodup_append.mp hnodup).2.2 e he e hdone rfl
      · intro k hk hlt
        rw [hslot, h.mem_done_slots]
        by_cases hnext : k < t.nextHeightToSequence (e.getGenesisHash C)
        · exact .inr ⟨hk, hnext⟩
        · exact .inl (hrun k (not_lt.mp hnext) hlt.le)
    · intro he
      obtain ⟨hmem, hnot, hrun⟩ := he
      have hpending : e ∈ t.pending :=
        (List.mem_append.mp (hperm.mem_iff.mpr hmem)).resolve_right hnot
      refine ⟨hpending, ?_⟩
      intro k hk hle
      rcases hle.eq_or_lt with rfl | hlt
      · exact List.mem_map_of_mem hpending
      · have hin := hrun k ((h.next_nonneg _).trans hk) hlt
        rw [hslot, h.mem_done_slots] at hin
        exact hin.resolve_right fun hdone => absurd hdone.2 (not_lt.mpr hk)
  · exact hbatch
  · exact (h.emits hemits).gapless
  · intro i j a b ha hb hturn
    by_contra hle
    have hturns : b.turn C done ≤ a.turn C done := by
      have hfirst : t.nextHeightToSequence =
          fun g => (done.countP fun m => m.getGenesisHash C = g : ℤ) := funext h.next_eq
      have hsorted := hemits.sorted
      rw [hfirst] at hsorted
      rcases (not_lt.mp hle).eq_or_lt with rfl | hlt
      · rw [ha] at hb
        rw [Option.some.inj hb]
      · obtain ⟨hi, rfl⟩ := List.getElem?_eq_some_iff.mp ha
        obtain ⟨hj, rfl⟩ := List.getElem?_eq_some_iff.mp hb
        exact List.pairwise_iff_getElem.mp hsorted j i hj hi hlt
    omega

namespace Host

variable {h h₀ : Host J}

/-- While the task runs, what the others do leaves the selection among the rows that it has passed as
it was; what was sequenced is selected when a task starts again; and the store is playable. -/
def Timely (S : Signer C) (h : Host J) : HostEvent C → Prop
  | .store op => h.running → h.store.SteadyUpTo S.key h.task.seq (h.store.apply op)
  | .addMember group genesis => h.running →
      h.store.SteadyUpTo S.key h.task.seq (h.store.addMemberToChainCommitGroup group genesis)
  | .iterate _ => h.store.Playable C S.key
  | .recover => ∀ hash ∈ h.published.flatten, ∃ r ∈ h.store.messages, r.hash = hash ∧
      h.store.selects S.key r
  | _ => True

private theorem timely_rule : Rule S K (Timely S) (fun s t done => t.Tracks C S.key s done)
    fun s _ done => s.Sequenced C done := by
  constructor
  · intro h op hs hop hallowed
    have hpre := Store.prefix_apply (s := h.store) op
    constructor
    · intro hrunning done hP
      exact hP.steady (hallowed hrunning) (Store.length_le_of_prefix hpre)
    · exact fun done hQ => hQ.mono hpre
  · intro h group genesis hs hallowed
    have hmessages := Store.addMember_messages (s := h.store) group genesis
    constructor
    · intro hrunning done hP
      exact hP.steady (hallowed hrunning) (by rw [hmessages])
    · intro done hQ
      apply hQ.mono
      rw [Store.contents, Store.contents, hmessages]
  · intro s s' t done hs _ hpre hsteady hP
    exact hP.steady (hsteady.mono hP.seq_le) (Store.length_le_of_prefix hpre)
  · exact fun s t done hs hP => hP.sequenced hs
  · intro h ch done hs hlog _ _ hallowed hP
    obtain ⟨_, t, batch, _, hiterate, hP'⟩ := hP.iterate hs hallowed hlog ch
    exact ⟨t, batch, hiterate, hP'⟩
  · intro h done hs hdone hallowed hQ
    unfold Timely at hallowed
    rw [hdone] at hallowed
    obtain ⟨t, hrecover, hP, _⟩ := recover_eq hs.linked hs.sourced
      (hQ.selected_of_hashes hs hallowed) hQ.gapless hQ.nodup
    exact ⟨t, hrecover, hP⟩

/-- In every state of a timely run, the batches that were published cover every chain without a gap
from height 0 on, and the next iteration continues them fairly. -/
theorem batches_fair [DecidableEq J] (hzero : ∀ e, C.canonicalizedHash e ≠ .genesis)
    (hbound : ∀ e, (C.canonicalizedHash e).digest < 2 ^ 256) (hinit : h₀.Initial S K)
    (hrun : Run (fun h ev h' => h.Timely S ev ∧ h.step S K ev = some h') (fun _ => True) h₀ h) :
    ∃ done, h.published.flatten = done.map C.canonicalizedHash ∧ h.store.Sequenced C done ∧
      (∀ panic, h.phase ≠ .stopped (some panic)) ∧
      (h.phase = .polling → ∀ ch, h.Timely S (.iterate ch) → ∃ t batch,
        h.task.iterate C S.key ch h.store = .ok (t, batch.map C.canonicalizedHash) ∧
        FairBatch C S.key h.store done batch) := by
  have hempty : h₀.store.Sequenced C [] := ⟨fun g => ⟨0, rfl⟩, .nil, by simp⟩
  have hh := timely_rule.holds hzero hbound hinit hempty hrun
  obtain ⟨done, hdone, hQ, hfollows⟩ := hh.knows
  refine ⟨done, hdone, hQ, ?_, ?_⟩
  · intro panic hphase
    simp [Follows, hphase] at hfollows
  · intro hphase ch hallowed
    unfold Follows at hfollows
    rw [hphase] at hfollows
    obtain ⟨horderly, t, batch, hemits, hiterate, _⟩ :=
      hfollows.iterate hh.ready hallowed hh.log ch
    have hfetch := hfollows.fetch hh.ready.linked hh.ready.sourced
    exact ⟨t, batch, hiterate, hfetch.fairBatch hh.ready Task.Tracks.fetch_selected horderly hemits⟩

end Host

end

/-- A message is a batch or nothing, and an envelope is identified by its key and by the nonce to
which it commits. -/
def tinyCrypto : Crypto (Option (List CanonicalEnvelopeHash)) where
  canonicalizedHash e := ⟨(e.header.key.x * 1000 + e.header.nextNonce.point.x) % 2 ^ 255 + 1⟩
  verifySchnorr sig digest key := sig.s = sig.r + digest.digest * key.x

theorem tinyCrypto_ne_genesis (e : Envelope (Option (List CanonicalEnvelopeHash))) :
    tinyCrypto.canonicalizedHash e ≠ .genesis := by
  intro h
  have hdigest := congrArg CanonicalEnvelopeHash.digest h
  exact absurd hdigest (Nat.succ_ne_zero _)

theorem tinyCrypto_lt (e : Envelope (Option (List CanonicalEnvelopeHash))) :
    (tinyCrypto.canonicalizedHash e).digest < 2 ^ 256 := by
  have hlt : (e.header.key.x * 1000 + e.header.nextNonce.point.x) % 2 ^ 255 < 2 ^ 255 :=
    Nat.mod_lt _ (by decide)
  show _ % 2 ^ 255 + 1 < 2 ^ 256
  omega

def tinyCodec : BroadcastCodec (Option (List CanonicalEnvelopeHash)) where
  decode
    | some batch => some ⟨.sequence batch, "default"⟩
    | none => some ⟨.heartbeat, "default"⟩
  encode m := m.data.batch?
  decode_encode _ _ := rfl

def tinySigner : Signer tinyCrypto where
  key := ⟨7⟩
  getPublic nonce := ⟨⟨nonce⟩⟩
  signWithPrecomittedNonce nonce digest := ⟨nonce, nonce + digest.digest * 7⟩
  nonce_eq _ _ := rfl

/-- The hash of an envelope of a key that commits to a nonce. -/
def tinyHash (key nextNonce : ℕ) : CanonicalEnvelopeHash :=
  ⟨(key * 1000 + nextNonce) % 2 ^ 255 + 1⟩

/-- An envelope that commits to a nonce, upon an envelope of a chain when there is one. -/
def tinyEnvelope (key : ℕ) (ancestors : Option Ancestors) (height : ℤ) (nextNonce : ℕ) :
    Envelope (Option (List CanonicalEnvelopeHash)) where
  header :=
    { key := ⟨key⟩
      nextNonce := ⟨⟨nextNonce⟩⟩
      ancestors
      tips := []
      height
      sentTimeMs := 0
      unsigned := ⟨some ⟨0, (tinyHash key nextNonce).digest * key⟩⟩
      checkpoints := .default }
  msg := none

private theorem tinyEnvelope_genesis (key nextNonce : ℕ) :
    (tinyEnvelope key none 0 nextNonce).selfAuthenticate tinyCrypto =
      .ok (tinyEnvelope key none 0 nextNonce) := by
  apply selfAuthenticate_eq_ok_iff.mpr
  refine ⟨rfl, fun _ => rfl, fun h => absurd h (Int.lt_irrefl 0), _, rfl, ?_⟩
  exact decide_eq_true (Nat.zero_add _).symm

private theorem tinyEnvelope_later (key : ℕ) (ancestors : Ancestors) (height nextNonce : ℕ) :
    (tinyEnvelope key (some ancestors) (height + 1) nextNonce).selfAuthenticate tinyCrypto =
      .ok (tinyEnvelope key (some ancestors) (height + 1) nextNonce) := by
  apply selfAuthenticate_eq_ok_iff.mpr
  refine ⟨rfl, fun h => ?_, fun _ => rfl, _, rfl, ?_⟩
  · have hpos : (height : ℤ) + 1 = 0 := h
    omega
  · exact decide_eq_true (Nat.zero_add _).symm

def tinyGenesis (key nextNonce : ℕ) : Authenticated tinyCrypto :=
  ⟨_, tinyEnvelope_genesis key nextNonce⟩

/-- An envelope of a key upon its previous one, in the chain of a key whose genesis commits to 0. -/
def tinyLater (key parentNonce genesisKey height nextNonce : ℕ) : Authenticated tinyCrypto :=
  ⟨_, tinyEnvelope_later key ⟨tinyHash key parentNonce, tinyHash genesisKey 0⟩ height nextNonce⟩

/-- Alice, Bob and the host, whose group is Bob's at first. -/
def tinyStore : Store (Option (List CanonicalEnvelopeHash)) :=
  { ([.insertUser "alice" (tinyGenesis 5 0) 0, .insertUser "bob" (tinyGenesis 6 0) 0,
      .insertUser "host" (tinyGenesis 7 0) 0].foldl Store.apply
        (.empty : Store (Option (List CanonicalEnvelopeHash)))) with
    groupMembers := [(1, 2)]
    groupSubscribers := [(1, 3)] }

def tinyHost : Host (Option (List CanonicalEnvelopeHash)) :=
  ⟨tinyStore, .start, .initial, [], .initial⟩

theorem tinyHost_initial : tinyHost.Initial tinySigner tinyCodec := by
  constructor
  · exact Store.reachable_foldl [.insertUser "alice" (tinyGenesis 5 0) 0,
      .insertUser "bob" (tinyGenesis 6 0) 0, .insertUser "host" (tinyGenesis 7 0) 0]
  · decide +kernel
  · have hrow : ∃ r ∈ tinyHost.store.messages, r.key = tinySigner.key ∧ r.height = 0 ∧
        r.body.msg = none ∧ ∀ r' ∈ tinyHost.store.messages, r'.key = tinySigner.key → r' = r := by
      decide +kernel
    obtain ⟨r, hr, hkey, h0, hmsg, hall⟩ := hrow
    exact ⟨r, hr, hkey, h0, ⟨⟨.heartbeat, "default"⟩, by rw [hmsg]; rfl, rfl⟩, hall⟩
  · rfl
  · rfl
  · rfl

/-- Hash maps in the order of insertion, and a shuffle that changes nothing. -/
def inOrder {J : Type} (C : Crypto J) : Choices C where
  order l := l
  genera l := (l.map (Envelope.getGenesisHash C)).dedup
  shuffle l := l
  order_perm _ := .refl _
  genera_nodup _ := List.nodup_dedup _
  mem_genera _ _ he := List.mem_dedup.mpr (List.mem_map_of_mem he)
  shuffle_perm _ := .refl _

/-- The state after some events that are all allowed and possible. -/
def Host.after {J : Type} {C : Crypto J} [DecidableEq J] (S : Signer C) (K : BroadcastCodec J)
    (Allowed : Host J → HostEvent C → Prop) [∀ h ev, Decidable (Allowed h ev)] (h : Host J)
    (evs : List (HostEvent C)) : Option (Host J) :=
  evs.foldlM (fun h ev => if Allowed h ev then h.step S K ev else none) h

theorem Host.run_of_after {J : Type} {C : Crypto J} [DecidableEq J] {S : Signer C}
    {K : BroadcastCodec J} {Allowed : Host J → HostEvent C → Prop}
    [∀ h ev, Decidable (Allowed h ev)] {h h' : Host J} {evs : List (HostEvent C)}
    (hafter : h.after S K Allowed evs = some h') :
    Run (fun h ev h' => Allowed h ev ∧ h.step S K ev = some h') (fun _ => True) h h' := by
  induction evs generalizing h with
  | nil =>
    obtain rfl := Option.some.inj hafter
    exact .refl
  | cons ev evs ih =>
    rw [Host.after, List.foldlM_cons] at hafter
    obtain ⟨h₁, hstep, hrest⟩ := Option.bind_eq_some_iff.mp hafter
    split_ifs at hstep with hallowed
    exact (Run.single trivial ⟨hallowed, hstep⟩).trans (ih hrest)

section

variable {J : Type} {C : Crypto J} [DecidableEq J]

instance (h : Host J) : Decidable h.running := by
  unfold Host.running
  exact match h.phase with
    | .polling => isTrue trivial
    | .publishing _ => isTrue trivial
    | .start => isFalse id
    | .loaded _ => isFalse id
    | .stopped _ => isFalse id

instance (key : XOnlyPublicKey) (n : ℕ) (s s' : Store J) : Decidable (s.SteadyUpTo key n s') :=
  decidable_of_iff (∀ m < n + 1, s'.selectedUpTo key m = s.selectedUpTo key m)
    ⟨fun h m hm => h m (Nat.lt_succ_of_le hm), fun h m hm => h m (Nat.le_of_lt_succ hm)⟩

instance (key : XOnlyPublicKey) (s : Store J) : Decidable (s.Playable C key) :=
  decidable_of_iff ((∀ r ∈ s.messages, ∀ r' ∈ s.messages, s.selects key r → s.selects key r' →
      r.body.slot C = r'.body.slot C → r = r') ∧
    ∀ m ∈ s.groupMembers, m.1 ∈ s.groupsThisChainSubscribesTo key →
      ∀ r ∈ s.messages, r.messageId = m.2 → r.key ≠ key)
    ⟨fun h => ⟨h.1, h.2⟩, fun h => ⟨h.unique, h.others⟩⟩

instance (S : Signer C) (h : Host J) (ev : HostEvent C) : Decidable (h.Timely S ev) :=
  match ev with
  | .store op => inferInstanceAs (Decidable (_ → Store.SteadyUpTo _ _ _ (h.store.apply op)))
  | .addMember group genesis => inferInstanceAs (Decidable (_ → Store.SteadyUpTo _ _ _
      (h.store.addMemberToChainCommitGroup group genesis)))
  | .iterate _ => inferInstanceAs (Decidable (Store.Playable _ _ _))
  | .recover => inferInstanceAs (Decidable (∀ hash ∈ h.published.flatten,
      ∃ r ∈ h.store.messages, r.hash = hash ∧ h.store.selects S.key r))
  | .publish _ => isTrue trivial
  | .crash => isTrue trivial
  | .load => isTrue trivial

end

/-- A transaction of the host upon a row of its chain. -/
def tinyPublication (tip : Row (Option (List CanonicalEnvelopeHash))) (secret nextNonce : ℕ) :
    Publication (Option (List CanonicalEnvelopeHash)) :=
  ⟨tip, [], secret, nextNonce, 0, .default, 0⟩

/-- The row of the host's genesis. -/
def tinyTip : Row (Option (List CanonicalEnvelopeHash)) :=
  (tinyStore.rowByHash (tinyHash 7 0)).get (by decide +kernel)

/-- Bob writes two messages, and the host starts, publishes Bob's genesis and the first of them, and
polls again. -/
def tinyEvents : List (HostEvent tinyCrypto) :=
  [.store (.insert (tinyLater 6 0 6 0 1) false 0), .load, .recover, .iterate (inOrder _),
    .publish (tinyPublication tinyTip 0 1),
    .store (.insert (tinyLater 6 1 6 1 2) false 0)]

/-- What a timely run publishes is fair. -/
theorem batches_fair_sample : ∃ h : Host (Option (List CanonicalEnvelopeHash)),
    h.published = [[tinyHash 6 0, tinyHash 6 1]] ∧ h.phase = .polling ∧
      ∃ t batch done, h.task.iterate tinyCrypto tinySigner.key (inOrder _) h.store =
        .ok (t, batch.map tinyCrypto.canonicalizedHash) ∧
        FairBatch tinyCrypto tinySigner.key h.store done batch := by
  have hsome : (tinyHost.after tinySigner tinyCodec (Host.Timely tinySigner)
      tinyEvents).isSome := by decide +kernel
  generalize hafter : tinyHost.after tinySigner tinyCodec (Host.Timely tinySigner)
    tinyEvents = after at hsome
  obtain ⟨h, rfl⟩ := Option.isSome_iff_exists.mp hsome
  have hpublished : (tinyHost.after tinySigner tinyCodec (Host.Timely tinySigner)
      tinyEvents).map Host.published = some [[tinyHash 6 0, tinyHash 6 1]] := by
    decide +kernel
  have hphase : (tinyHost.after tinySigner tinyCodec (Host.Timely tinySigner)
      tinyEvents).map Host.phase = some .polling := by
    decide +kernel
  have htimely : (tinyHost.after tinySigner tinyCodec (Host.Timely tinySigner)
      tinyEvents).all fun h => h.store.Playable tinyCrypto tinySigner.key := by
    decide +kernel
  rw [hafter] at hpublished hphase htimely
  have hphase := Option.some.inj hphase
  obtain ⟨done, _, _, _, hfair⟩ := Host.batches_fair tinyCrypto_ne_genesis tinyCrypto_lt
    tinyHost_initial (Host.run_of_after hafter)
  obtain ⟨t, batch, hiterate, hbatch⟩ := hfair hphase (inOrder _) (of_decide_eq_true htimely)
  exact ⟨h, Option.some.inj hpublished, hphase, t, batch, done, hiterate, hbatch⟩

/-- Alice becomes a member after the host has passed the row of her genesis. -/
def lateMember : List (HostEvent tinyCrypto) :=
  [.load, .recover, .addMember 1 (tinyHash 5 0)]

theorem late_member_missed : ∃ h : Host (Option (List CanonicalEnvelopeHash)),
    Run (fun h (ev : HostEvent tinyCrypto) h' => h.step tinySigner tinyCodec ev = some h')
      (fun _ => True) tinyHost h ∧ tinyHost.Initial tinySigner tinyCodec ∧
    h.store.Playable tinyCrypto tinySigner.key ∧ h.phase = .polling ∧
    ∃ t batch, h.task.iterate tinyCrypto tinySigner.key (inOrder _) h.store = .ok (t, batch) ∧
      ∃ e ∈ h.store.selected tinySigner.key, e.header.height = 0 ∧
        tinyCrypto.canonicalizedHash e ∉ h.published.flatten ∧
        tinyCrypto.canonicalizedHash e ∉ batch := by
  have hsome : (tinyHost.after tinySigner tinyCodec (fun _ _ => True) lateMember).isSome := by
    decide +kernel
  generalize hafter : tinyHost.after tinySigner tinyCodec (fun _ _ => True) lateMember = after
    at hsome
  obtain ⟨h, rfl⟩ := Option.isSome_iff_exists.mp hsome
  have hstate : (tinyHost.after tinySigner tinyCodec (fun _ _ => True) lateMember).all
      fun h => h.store.Playable tinyCrypto tinySigner.key ∧ h.phase = .polling ∧
        (h.task.iterate tinyCrypto tinySigner.key (inOrder _) h.store).toOption.any
          fun out => ∃ e ∈ h.store.selected tinySigner.key, e.header.height = 0 ∧
            tinyCrypto.canonicalizedHash e ∉ h.published.flatten ∧
            tinyCrypto.canonicalizedHash e ∉ out.2 := by
    decide +kernel
  rw [hafter] at hstate
  obtain ⟨hplayable, hphase, hout⟩ := of_decide_eq_true hstate
  have hrun := Host.run_of_after hafter
  refine ⟨h, hrun.of_step fun _ _ _ hstep => hstep.2, tinyHost_initial, hplayable, hphase, ?_⟩
  cases hiterate : h.task.iterate tinyCrypto tinySigner.key (inOrder _) h.store with
  | error p => simp [hiterate, Except.toOption] at hout
  | ok out =>
    rw [hiterate] at hout
    exact ⟨out.1, out.2, rfl, of_decide_eq_true hout⟩

end JudicaVM
