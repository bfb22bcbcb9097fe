import JudicaVM.Lib.Members
import JudicaVM.Peer.Services
import JudicaVM.Sequencer.Fetcher

/-!
# A node that follows the host

A node reads the chain of the host from its own database, one height after the other, and schedules
the batches for its sequencer. It learns of new peers on the way. The rows of the host may arrive in
any order, and are read whether they are connected or not.
-/

namespace JudicaVM

open Transition

section

variable {J E : Type} {C : Crypto J}

/-- `message_by_height_and_user.sql` returns one of these. -/
def Store.messagesAtHeight (s : Store J) (key : XOnlyPublicKey) (height : ℕ) : List (Row J) :=
  s.messages.filter fun r =>
    (s.userByKey key).map User.userId = some r.userId && r.height = height

/-- The database of a node with its sequencer, the height that `start_sequencer` asks for next, and
the table of peers. -/
structure Replica (J E : Type) where
  fetcher : OnlineDBFetcher J E
  count : ℕ
  hiddenServices : HiddenServices

inductive ReplicaEvent {J : Type} (C : Crypto J)
  /-- The database, the fetcher and the batcher; batches are scheduled by a poll only. -/
  | fetcher (ev : FetcherEvent C)
  | poll (row : Option (Row J))
  | upsert (service : ServiceUrl) (fetchFrom pushTo allowUnsolicitedTips : Option Bool)

/-- The announced peer is inserted unless it is known. -/
def HiddenServices.announce (t : HiddenServices) (p : Peer) : HiddenServices :=
  (t.insertHiddenService ⟨p.serviceUrl, p.port, true, true, true⟩).getD t

namespace Replica

variable [DecidableEq J] (K : BroadcastCodec J) (decode : Envelope J → Option E)
  (hash : E → CanonicalEnvelopeHash) (key : XOnlyPublicKey) (s : Replica J E)

def initial (store : Store J) (hiddenServices : HiddenServices) : Replica J E :=
  ⟨.initial store, 0, hiddenServices⟩

/-- One message of the host. -/
def handle (m : BroadcastByHost) : Option (Replica J E) :=
  match m with
  | .heartbeat => some { s with count := s.count + 1 }
  | .sequence batch =>
    (s.fetcher.serve (.schedule batch) s.fetcher.phase).map fun fetcher =>
      { s with fetcher, count := s.count + 1 }
  | .newPeer p =>
    some { s with hiddenServices := s.hiddenServices.announce p, count := s.count + 1 }
  | .gameSetup _ => some { s with count := s.count + 1 }

/-- A row that cannot be read is asked for again. -/
def poll (row : Row J) : Option (Replica J E) :=
  match K.decode row.body.msg with
  | none => some s
  | some m => s.handle m.data

def step : ReplicaEvent C → Option (Replica J E)
  | .fetcher ev =>
    match ev with
    | .schedule _ => none
    | ev => (s.fetcher.step decode hash ev).map fun fetcher => { s with fetcher }
  | .poll row =>
    if s.fetcher.batcher.shutdown then none
    else
      let rows := s.fetcher.store.messagesAtHeight key s.count
      match row with
      | none => if rows.isEmpty then some s else none
      | some r => if rows.contains r then s.poll K r else none
  | .upsert service fetchFrom pushTo allowUnsolicitedTips =>
    some { s with
      hiddenServices :=
        s.hiddenServices.upsertHiddenService service fetchFrom pushTo allowUnsolicitedTips }

end Replica

/-- The height of every entry is its place. -/
def Numbered (chain : List (CanonicalEnvelopeHash × Envelope J)) : Prop :=
  ∀ (n : ℕ) c, chain[n]? = some c → c.2.header.height = n

/-- The message of an entry. -/
def BroadcastCodec.broadcast? (K : BroadcastCodec J) (c : CanonicalEnvelopeHash × Envelope J) :
    Option BroadcastByHost :=
  (K.decode c.2.msg).map Channelized.data

def BroadcastCodec.batch? (K : BroadcastCodec J) (c : CanonicalEnvelopeHash × Envelope J) :
    Option (List CanonicalEnvelopeHash) :=
  (K.broadcast? c).bind BroadcastByHost.batch?

def BroadcastByHost.peer? : BroadcastByHost → Option Peer
  | .newPeer p => some p
  | _ => none

variable {chain chain' : List (CanonicalEnvelopeHash × Envelope J)}
  {c : CanonicalEnvelopeHash × Envelope J}

private theorem Numbered.getElem?_of_mem (h : Numbered chain) (hc : c ∈ chain) {n : ℕ}
    (hn : c.2.header.height = n) : chain[n]? = some c := by
  obtain ⟨m, hm⟩ := List.mem_iff_getElem?.mp hc
  have hheight := h m c hm
  rw [hn] at hheight
  rwa [Int.ofNat_inj.mp hheight]

namespace HiddenServices

variable {t : HiddenServices} {service : ServiceUrl}

private theorem has_iff : t.has service ↔ service ∈ t.rows.map PeerInfo.service := by
  simp [has]

private theorem has_announce (t : HiddenServices) (p : Peer) :
    (t.announce p).has ⟨p.serviceUrl, p.port⟩ := by
  unfold announce insertHiddenService
  split
  · rw [has_iff]
    show _ ∈ (t.rows ++ [_]).map PeerInfo.service
    rw [List.map_append]
    exact List.mem_append_right _ (List.mem_singleton_self _)
  · rename_i h
    exact Bool.not_eq_false _ ▸ h

private theorem has_of_announce {p : Peer} (h : t.has service) : (t.announce p).has service := by
  unfold announce insertHiddenService
  split
  · rw [has_iff] at h ⊢
    show _ ∈ (t.rows ++ [_]).map PeerInfo.service
    rw [List.map_append]
    exact List.mem_append_left _ h
  · exact h

private theorem has_of_upsert (h : t.has service) (service' : ServiceUrl) (f p a : Option Bool) :
    (t.upsertHiddenService service' f p a).has service := by
  unfold upsertHiddenService
  rw [has_iff] at h ⊢
  split
  · show _ ∈ (t.rows ++ [_]).map PeerInfo.service
    rw [List.map_append]
    exact List.mem_append_left _ h
  · obtain ⟨q, hq, rfl⟩ := List.mem_map.mp h
    refine List.mem_map.mpr ⟨_, List.mem_map_of_mem hq, ?_⟩
    split <;> rfl

end HiddenServices

namespace Replica

variable {K : BroadcastCodec J} {decode : Envelope J → Option E}
  {hash : E → CanonicalEnvelopeHash} {key : XOnlyPublicKey} {s s' : Replica J E}

/-- The node has stored only entries of the chain under the key of the host, and has handled its first
entries: their batches are scheduled, and their peers are in the table. -/
structure Follows (C : Crypto J) (K : BroadcastCodec J) (decode : Envelope J → Option E)
    (hash : E → CanonicalEnvelopeHash) (key : XOnlyPublicKey)
    (chain : List (CanonicalEnvelopeHash × Envelope J)) (s : Replica J E) : Prop where
  supplies : s.fetcher.Supplies decode hash
  sourced : s.fetcher.store.Sourced C
  own : s.fetcher.store.own key ⊆ chain
  count_le : s.count ≤ chain.length
  scheduled : s.fetcher.batcher.scheduled = (chain.take s.count).filterMap K.batch?
  closed : s.fetcher.batcher.closed = false
  announced : ∀ p ∈ (chain.take s.count).filterMap
      (fun c => (K.broadcast? c).bind BroadcastByHost.peer?),
    s.hiddenServices.has ⟨p.serviceUrl, p.port⟩

theorem Follows.extend (hs : s.Follows C K decode hash key chain) (hpre : chain <+: chain') :
    s.Follows C K decode hash key chain' := by
  have htake : chain'.take s.count = chain.take s.count := by
    obtain ⟨rest, rfl⟩ := hpre
    exact List.take_append_of_le_length hs.count_le
  refine ⟨hs.supplies, hs.sourced, ?_, hs.count_le.trans hpre.length_le, ?_, hs.closed, ?_⟩
  · exact fun c hc => hpre.subset (hs.own hc)
  · rw [htake]
    exact hs.scheduled
  · rw [htake]
    exact hs.announced

private theorem mem_messagesAtHeight {st : Store J} {r : Row J} {n : ℕ} (hs : st.Sourced C) :
    r ∈ st.messagesAtHeight key n ↔ r ∈ st.messages ∧ r.key = key ∧ r.height = n := by
  rw [Store.messagesAtHeight, List.mem_filter, Bool.and_eq_true, decide_eq_true_eq,
    decide_eq_true_eq]
  exact and_congr_right fun hr => and_congr_left fun _ => hs.userByKey_eq_iff hr

private theorem Follows.next (hs : s.Follows C K decode hash key chain) (hchain : Numbered chain)
    {r : Row J} (hr : r ∈ s.fetcher.store.messagesAtHeight key s.count) :
    chain[s.count]? = some (r.hash, r.body) := by
  obtain ⟨hmem, hkey, hheight⟩ := (mem_messagesAtHeight hs.sourced).mp hr
  apply hchain.getElem?_of_mem (hs.own _) hheight
  exact List.mem_filter.mpr ⟨Store.mem_contents hmem, decide_eq_true hkey⟩

private theorem Follows.advance (hs : s.Follows C K decode hash key chain)
    (hc : chain[s.count]? = some c) {m : BroadcastByHost} (hm : K.broadcast? c = some m)
    {fetcher : OnlineDBFetcher J E} {hiddenServices : HiddenServices}
    (hsupplies : fetcher.Supplies decode hash) (hstore : fetcher.store = s.fetcher.store)
    (hscheduled : fetcher.batcher.scheduled = s.fetcher.batcher.scheduled ++ m.batch?.toList)
    (hclosed : fetcher.batcher.closed = s.fetcher.batcher.closed)
    (hold : ∀ service, s.hiddenServices.has service → hiddenServices.has service)
    (hnew : ∀ p ∈ m.peer?, hiddenServices.has ⟨p.serviceUrl, p.port⟩) :
    Follows C K decode hash key chain ⟨fetcher, s.count + 1, hiddenServices⟩ := by
  have htake : chain.take (s.count + 1) = chain.take s.count ++ [c] := by
    rw [List.take_add_one, hc]
    rfl
  refine ⟨hsupplies, ?_, ?_, ?_, ?_, hclosed.trans hs.closed, ?_⟩
  · show fetcher.store.Sourced C
    rw [hstore]
    exact hs.sourced
  · show fetcher.store.own key ⊆ chain
    rw [hstore]
    exact hs.own
  · have hlt := (List.getElem?_eq_some_iff.mp hc).1
    exact hlt
  · show fetcher.batcher.scheduled = (chain.take (s.count + 1)).filterMap K.batch?
    rw [hscheduled, hs.scheduled, htake, List.filterMap_append]
    congr 1
    simp only [List.filterMap_cons, List.filterMap_nil, BroadcastCodec.batch?, hm, Option.bind_some]
    cases m.batch? <;> rfl
  · show ∀ p ∈ (chain.take (s.count + 1)).filterMap _, _
    rw [htake, List.filterMap_append]
    intro p hp
    obtain hp | hp := List.mem_append.mp hp
    · exact hold _ (hs.announced p hp)
    · obtain ⟨c', hc', hread⟩ := List.mem_filterMap.mp hp
      rw [List.mem_singleton.mp hc', hm, Option.bind_some] at hread
      exact hnew p hread

private theorem Follows.handle (hs : s.Follows C K decode hash key chain)
    (hc : chain[s.count]? = some c) {m : BroadcastByHost} (hm : K.broadcast? c = some m)
    (hstep : s.handle m = some s') : s'.Follows C K decode hash key chain := by
  have hsame : s.fetcher.batcher.scheduled = s.fetcher.batcher.scheduled ++ [] := by
    rw [List.append_nil]
  cases m with
  | heartbeat =>
    cases hstep
    exact hs.advance hc hm hs.supplies rfl hsame rfl (fun _ h => h) (fun _ hp => by cases hp)
  | gameSetup setup =>
    cases hstep
    exact hs.advance hc hm hs.supplies rfl hsame rfl (fun _ h => h) (fun _ hp => by cases hp)
  | sequence batch =>
    obtain ⟨fetcher, hserve, rfl⟩ := Option.map_eq_some_iff.mp hstep
    have hsupplies := hs.supplies.serve (by simp) (by simp) hserve
    obtain ⟨b, hb, rfl⟩ := OnlineDBFetcher.serve_eq_some_iff.mp hserve
    have hb' : b.scheduled = s.fetcher.batcher.scheduled ++ [batch] ∧
        b.closed = s.fetcher.batcher.closed := by
      simp only [EnvelopeBatcher.step] at hb
      split at hb
      · cases hb
      · cases hb
        exact ⟨rfl, rfl⟩
    exact hs.advance hc hm hsupplies rfl hb'.1 hb'.2 (fun _ h => h) (fun _ hp => by cases hp)
  | newPeer p =>
    cases hstep
    apply hs.advance hc hm hs.supplies rfl hsame rfl
    · exact fun _ h => HiddenServices.has_of_announce h
    · intro p' hp'
      cases hp'
      exact HiddenServices.has_announce _ p

private theorem Follows.poll (hs : s.Follows C K decode hash key chain) (hchain : Numbered chain)
    {r : Row J} (hr : r ∈ s.fetcher.store.messagesAtHeight key s.count)
    (hstep : s.poll K r = some s') : s'.Follows C K decode hash key chain := by
  have hc := hs.next hchain hr
  unfold Replica.poll at hstep
  cases hm : K.decode r.body.msg with
  | none =>
    rw [hm] at hstep
    cases hstep
    exact hs
  | some m =>
    rw [hm] at hstep
    exact hs.handle hc (by rw [BroadcastCodec.broadcast?, hm, Option.map_some]) hstep

private theorem closed_of_batcherStep {b b' : EnvelopeBatcher E} (h : b.batcherStep = some b') :
    b'.closed = b.closed := by
  unfold EnvelopeBatcher.batcherStep at h
  split at h
  · split at h
    · split_ifs at h
      cases h
      rfl
    · cases h
      rfl
  · split_ifs at h <;> cases h <;> rfl
  · cases h
    rfl
  · cases h
    rfl
  · split at h <;> cases h <;> rfl
  · cases h

private theorem serve_frame {f f' : OnlineDBFetcher J E} {ev : SequencerEvent E} {phase : Fetching}
    (hev : ∀ batch, ev ≠ .schedule batch) (hclose : ev ≠ .close)
    (h : f.serve ev phase = some f') : (f'.batcher.scheduled = f.batcher.scheduled ∧
      f'.batcher.closed = f.batcher.closed) ∧ f'.store = f.store := by
  obtain ⟨b, hb, rfl⟩ := OnlineDBFetcher.serve_eq_some_iff.mp h
  refine ⟨?_, rfl⟩
  cases ev with
  | schedule batch => exact absurd rfl (hev batch)
  | close => exact absurd rfl hclose
  | notifyWaiters | shutdown =>
    cases hb
    exact ⟨rfl, rfl⟩
  | fill entries =>
    simp only [EnvelopeBatcher.step] at hb
    split at hb
    · cases hb
    · cases hb
      exact ⟨rfl, rfl⟩
  | batcher => exact ⟨(EnvelopeBatcher.batcherStep_frame hb).1, closed_of_batcherStep hb⟩

/-- Nobody but the host signs with its key. -/
def Unforged (key : XOnlyPublicKey) (chain : List (CanonicalEnvelopeHash × Envelope J)) :
    ReplicaEvent C → Prop
  | .fetcher (.store op) => ∀ e ∈ op.envelope, e.inner.header.key = key → e.entry ∈ chain
  | _ => True

private theorem own_apply {st : Store J} {op : StoreOp C}
    (hop : ∀ e ∈ op.envelope, e.inner.header.key = key → e.entry ∈ chain)
    (hown : st.own key ⊆ chain) : (st.apply op).own key ⊆ chain := by
  obtain hsame | ⟨e, he, hnew⟩ := Store.contents_apply (s := st) op
  · rwa [Store.own, hsame, ← Store.own]
  · intro c hc
    obtain ⟨hmem, hkey⟩ := List.mem_filter.mp hc
    rw [hnew] at hmem
    obtain hold | hlast := List.mem_append.mp hmem
    · exact hown (List.mem_filter.mpr ⟨hold, hkey⟩)
    · obtain rfl := List.mem_singleton.mp hlast
      exact hop e he (of_decide_eq_true hkey)

private theorem sourced_apply {st : Store J} (op : StoreOp C) (hs : st.Sourced C) :
    (st.apply op).Sourced C := by
  apply apply_preserves (I := fun st' => st'.Sourced C) op hs
  · exact fun nickname e _ => hs.addUser nickname e.inner.header.key
  · exact fun s₁ e user now s' hs₁ _ _ hocc => hs₁.occurs hocc
  · exact fun s' hocc => hs.occurs hocc

private theorem sourced_addMember {st : Store J} (group : ℕ) (genesis : CanonicalEnvelopeHash)
    (hs : st.Sourced C) : (st.addMemberToChainCommitGroup group genesis).Sourced C := by
  have hmessages := Store.addMember_messages (s := st) group genesis
  have husers := Store.addMember_users (s := st) group genesis
  constructor
  · rw [husers]
    exact hs.userIds
  · rw [husers]
    exact hs.keys
  · rw [hmessages]
    exact hs.body
  · rw [hmessages, husers]
    exact hs.user

private theorem own_addMember {st : Store J} (group : ℕ) (genesis : CanonicalEnvelopeHash) :
    (st.addMemberToChainCommitGroup group genesis).own key = st.own key := by
  simp only [Store.own, Store.contents, Store.addMember_messages]

variable [DecidableEq J]

private theorem fetcher_frame {f f' : OnlineDBFetcher J E} {ev : FetcherEvent C}
    (hev : ∀ batch, ev ≠ .schedule batch) (h : f.step decode hash ev = some f') :
    (f'.batcher.scheduled = f.batcher.scheduled ∧ f'.batcher.closed = f.batcher.closed) ∧
      (f'.store = f.store ∨ (∃ op, ev = .store op ∧ f'.store = f.store.apply op) ∨
        ∃ group genesis, f'.store = f.store.addMemberToChainCommitGroup group genesis) := by
  cases ev with
  | store op =>
    cases h
    exact ⟨⟨rfl, rfl⟩, .inr (.inl ⟨op, rfl, rfl⟩)⟩
  | addMember group genesis =>
    cases h
    exact ⟨⟨rfl, rfl⟩, .inr (.inr ⟨group, genesis, rfl⟩)⟩
  | schedule batch => exact absurd rfl (hev batch)
  | shutdown | batcher => exact (serve_frame (by simp) (by simp) h).imp_right .inl
  | check =>
    simp only [OnlineDBFetcher.step, Option.ite_none_right_eq_some, Option.some.injEq] at h
    obtain ⟨_, rfl⟩ := h
    exact ⟨⟨rfl, rfl⟩, .inl rfl⟩
  | fetch rows =>
    simp only [OnlineDBFetcher.step, Option.ite_none_right_eq_some] at h
    obtain ⟨_, h⟩ := h
    obtain ⟨f₁, h₁, rfl⟩ := Option.map_eq_some_iff.mp h
    exact (serve_frame (by simp) (by simp) h₁).imp_right .inl
  | notifyWaiters =>
    simp only [OnlineDBFetcher.step] at h
    split at h
    · exact (serve_frame (by simp) (by simp) h).imp_right .inl
    · exact (serve_frame (by simp) (by simp) h).imp_right .inl
    · cases h

theorem Follows.step (hs : s.Follows C K decode hash key chain) (hchain : Numbered chain)
    {ev : ReplicaEvent C} (hev : Unforged key chain ev)
    (hstep : s.step K decode hash key ev = some s') : s'.Follows C K decode hash key chain := by
  cases ev with
  | fetcher fev =>
    have hnot : ∀ batch, fev ≠ .schedule batch := by
      intro batch heq
      subst heq
      cases hstep
    have hstep : (s.fetcher.step decode hash fev).map (fun fetcher => { s with fetcher }) =
        some s' := by
      cases fev with
      | schedule batch => exact absurd rfl (hnot batch)
      | _ => exact hstep
    obtain ⟨fetcher, hfetcher, rfl⟩ := Option.map_eq_some_iff.mp hstep
    obtain ⟨⟨hscheduled, hclosed⟩, hstore⟩ := fetcher_frame hnot hfetcher
    refine ⟨hs.supplies.step hfetcher, ?_, ?_, hs.count_le, hscheduled.trans hs.scheduled,
      hclosed.trans hs.closed, hs.announced⟩
    · obtain hsame | ⟨op, -, happly⟩ | ⟨group, genesis, hadd⟩ := hstore
      · exact hsame ▸ hs.sourced
      · exact happly ▸ sourced_apply op hs.sourced
      · exact hadd ▸ sourced_addMember group genesis hs.sourced
    · obtain hsame | ⟨op, rfl, happly⟩ | ⟨group, genesis, hadd⟩ := hstore
      · exact hsame ▸ hs.own
      · exact happly ▸ own_apply hev hs.own
      · exact hadd ▸ (own_addMember group genesis).symm ▸ hs.own
  | poll row =>
    simp only [Replica.step] at hstep
    split at hstep
    · cases hstep
    · split at hstep
      · split at hstep
        · cases hstep
          exact hs
        · cases hstep
      · split at hstep
        next hr => exact hs.poll hchain (List.contains_iff_mem.mp hr) hstep
        · cases hstep
  | upsert service fetchFrom pushTo allowUnsolicitedTips =>
    cases hstep
    exact ⟨hs.supplies, hs.sourced, hs.own, hs.count_le, hs.scheduled, hs.closed,
      fun p hp => HiddenServices.has_of_upsert (hs.announced p hp) _ _ _ _⟩

theorem Follows.initial {store : Store J} (hs : Store.Reachable C store)
    (hown : store.own key ⊆ chain) (hiddenServices : HiddenServices) :
    (Replica.initial store hiddenServices : Replica J E).Follows C K decode hash key chain where
  supplies := OnlineDBFetcher.Reaches.supplies (C := C) hs.linked Run.refl
  sourced := hs.sourced
  own := hown
  count_le := Nat.zero_le _
  scheduled := rfl
  closed := rfl
  announced := fun _ hp => by cases hp

omit [DecidableEq J] in
theorem Follows.pushed_isPrefix (hs : s.Follows C K decode hash key chain) :
    s.fetcher.batcher.pushed.map Prod.fst <+: (chain.filterMap K.batch?).flatten := by
  have hpushed := hs.supplies.reachable.inv.isPrefix
  rw [hs.scheduled] at hpushed
  apply hpushed.trans
  have htake : (chain.take s.count).filterMap K.batch? <+: chain.filterMap K.batch? :=
    (List.take_prefix _ _).filterMap _
  obtain ⟨rest, hrest⟩ := htake
  rw [← hrest, List.flatten_append]
  exact List.prefix_append _ _

omit [DecidableEq J] in
theorem Follows.agree (hs : s.Follows C K decode hash key chain)
    (hs' : s'.Follows C K decode hash key chain)
    (hfree : ∀ e ∈ s.fetcher.store.contents, ∀ e' ∈ s'.fetcher.store.contents, ∀ v v',
      decode e.2 = some v → decode e'.2 = some v' → hash v = hash v' → v = v') :
    s.fetcher.batcher.output <+: s'.fetcher.batcher.output ∨
      s'.fetcher.batcher.output <+: s.fetcher.batcher.output := by
  have hinj : ∀ x ∈ s.fetcher.batcher.pushed, ∀ y ∈ s'.fetcher.batcher.pushed,
      x.1 = y.1 → x = y := by
    intro x hx y hy heq
    obtain ⟨e, he, hv, hhash⟩ := hs.supplies.stored x (hs.supplies.reachable.inv.pushed hx)
    obtain ⟨e', he', hv', hhash'⟩ := hs'.supplies.stored y (hs'.supplies.reachable.inv.pushed hy)
    exact Prod.ext heq (hfree e he e' he' _ _ hv hv' (by rw [hhash, hhash', heq]))
  obtain h | h := Members.prefix_or_prefix_of_map hs.pushed_isPrefix hs'.pushed_isPrefix hinj
  · exact .inl (h.map _)
  · exact .inr (h.map _)

private theorem Follows.exists_poll (hs : s.Follows C K decode hash key chain)
    (hchain : Numbered chain)
    (hrunning : s.fetcher.batcher.shutdown = false) (hc : chain[s.count]? = some c)
    (hstored : c ∈ s.fetcher.store.contents) (hkey : c.2.header.key = key)
    (hread : (K.broadcast? c).isSome) :
    ∃ r s', s.step K decode hash key (.poll (some r) : ReplicaEvent C) = some s' ∧
      s'.count = s.count + 1 ∧ s'.fetcher.store = s.fetcher.store ∧
      s'.fetcher.batcher.shutdown = false := by
  obtain ⟨r, hr, rfl⟩ := List.mem_map.mp hstored
  have hquery : r ∈ s.fetcher.store.messagesAtHeight key s.count :=
    (mem_messagesAtHeight hs.sourced).mpr ⟨hr, hkey, hchain _ _ hc⟩
  obtain ⟨m, hm⟩ : ∃ m, K.decode r.body.msg = some m := by
    rwa [BroadcastCodec.broadcast?, Option.isSome_map, Option.isSome_iff_exists] at hread
  have hpoll : ∃ s', s.handle m.data = some s' ∧ s'.count = s.count + 1 ∧
      s'.fetcher.store = s.fetcher.store ∧ s'.fetcher.batcher.shutdown = false := by
    cases m.data with
    | sequence batch =>
      simp [Replica.handle, OnlineDBFetcher.serve, EnvelopeBatcher.step, hs.closed, hrunning]
    | heartbeat | gameSetup | newPeer => exact ⟨_, rfl, rfl, rfl, hrunning⟩
  obtain ⟨s', hs', hrest⟩ := hpoll
  refine ⟨r, s', ?_, hrest⟩
  simp only [Replica.step, hrunning, Bool.false_eq_true, if_false, List.contains_iff_mem.mpr hquery,
    if_true, Replica.poll, hm, hs']

/-- A node that has stored the whole chain schedules all of it by polls alone. -/
theorem Follows.catches_up (hs : s.Follows C K decode hash key chain) (hchain : Numbered chain)
    (hrunning : s.fetcher.batcher.shutdown = false) (hstored : chain ⊆ s.fetcher.store.contents)
    (hkeys : ∀ c ∈ chain, c.2.header.key = key) (hread : ∀ c ∈ chain, (K.broadcast? c).isSome) :
    ∃ s', Run (fun s (ev : ReplicaEvent C) s' => s.step K decode hash key ev = some s')
        (fun ev => ∃ r, ev = .poll (some r)) s s' ∧
      s'.Follows C K decode hash key chain ∧ s'.count = chain.length := by
  generalize hleft : chain.length - s.count = left
  induction left generalizing s with
  | zero => exact ⟨s, Run.refl, hs, Nat.le_antisymm hs.count_le (Nat.le_of_sub_eq_zero hleft)⟩
  | succ left ih =>
    have hlt : s.count < chain.length := by omega
    have hc : chain[s.count]? = some chain[s.count] := List.getElem?_eq_getElem hlt
    have hmem := List.getElem_mem hlt
    obtain ⟨r, s₁, hstep, hcount, hstore, hrunning₁⟩ :=
      hs.exists_poll hchain hrunning hc (hstored hmem) (hkeys _ hmem) (hread _ hmem)
    have hunforged : Unforged key chain (.poll (some r) : ReplicaEvent C) := trivial
    obtain ⟨s', hrun, hs', hdone⟩ :=
      ih (hs.step hchain hunforged hstep) hrunning₁ (hstore ▸ hstored) (by omega)
    exact ⟨s', (Run.single ⟨r, rfl⟩ hstep).trans hrun, hs', hdone⟩

end Replica

end

end JudicaVM
