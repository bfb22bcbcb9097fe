import JudicaVM.Attest.Arrival
import JudicaVM.Attest.Retrying
import JudicaVM.Host.Restart

/-!
# What can stop the host

Two messages at one place stop the host, a message at a place that is already sequenced blocks its
chain, and a child of the host's last message keeps the host from publishing. Without them every
iteration completes, and its batch holds the next stored message of every member's own chain.
-/

namespace JudicaVM

open Transition Checked

section

variable {J : Type} {C : Crypto J} {K : BroadcastCodec J} {s s' : Store J} {t t' : Task J}
  {key : XOnlyPublicKey} {done batch : List (Envelope J)} {r g : Row J}
  {published : List (List CanonicalEnvelopeHash)}

namespace Store

private theorem Linked.messageId_eq (hs : s.Linked) {i : ℕ} (hi : s.messages[i]? = some r) :
    r.messageId = i + 1 := by
  have hid := congrArg (·[i]?) hs.ids
  simp only [List.getElem?_map, hi, Option.map_some] at hid
  obtain ⟨hlt, hid⟩ := List.getElem?_eq_some_iff.mp hid.symm
  rw [List.getElem_range'] at hid
  omega

private theorem Linked.exists_at (hs : s.Linked) (hs' : s'.Linked) {i : ℕ}
    (hi : s.messages[i]? = some r) (hcontents : s'.contents[i]? = s.contents[i]?) :
    ∃ r' ∈ s'.messages, r'.messageId = r.messageId ∧ r'.hash = r.hash ∧ r'.body = r.body := by
  rw [contents, contents, List.getElem?_map, List.getElem?_map, hi] at hcontents
  obtain ⟨r', hi', heq⟩ := Option.map_eq_some_iff.mp hcontents
  obtain ⟨hhash, hbody⟩ := Prod.mk.inj heq
  have hid : r'.messageId = r.messageId := by rw [hs.messageId_eq hi, hs'.messageId_eq hi']
  exact ⟨r', List.mem_of_getElem? hi', hid, hhash, hbody⟩

private theorem Linked.exists_later (hs : s.Linked) (hs' : s'.Linked)
    (hpre : s.contents <+: s'.contents)
    (hr : r ∈ s.messages) :
    ∃ r' ∈ s'.messages, r'.messageId = r.messageId ∧ r'.hash = r.hash ∧ r'.body = r.body := by
  obtain ⟨i, hi⟩ := List.mem_iff_getElem?.mp hr
  apply hs.exists_at hs' hi
  have hlt : i < s.contents.length := by
    rw [contents, List.length_map]
    exact (List.getElem?_eq_some_iff.mp hi).1
  rw [List.getElem?_eq_getElem hlt, List.getElem?_eq_getElem (hlt.trans_le hpre.length_le),
    hpre.getElem]

private theorem Linked.exists_earlier (hs : s.Linked) (hs' : s'.Linked)
    (hpre : s.contents <+: s'.contents) (hr : r ∈ s'.messages)
    (hid : r.messageId ≤ s.messages.length) :
    ∃ r' ∈ s.messages, r'.messageId = r.messageId ∧ r'.hash = r.hash ∧ r'.body = r.body := by
  obtain ⟨i, hi⟩ := List.mem_iff_getElem?.mp hr
  apply hs'.exists_at hs hi
  have hlt : i < s.contents.length := by
    rw [hs'.messageId_eq hi] at hid
    rwa [contents, List.length_map]
  rw [List.getElem?_eq_getElem hlt, List.getElem?_eq_getElem (hlt.trans_le hpre.length_le),
    hpre.getElem]

/-- The genesis of a member of a group to which the host subscribes. -/
structure IsMember (s : Store J) (key : XOnlyPublicKey) (g : Row J) : Prop where
  row : g ∈ s.messages
  height : g.height = 0
  group : ∃ m ∈ s.groupMembers, m.1 ∈ s.groupsThisChainSubscribesTo key ∧ m.2 = g.messageId

/-- The chain of an author, hash by hash from its genesis on. -/
inductive OwnChain (C : Crypto J) (s : Store J) (g : Row J) : Row J → Prop
  | genesis : OwnChain C s g g
  | child {p r : Row J} (hp : OwnChain C s g p) (hr : r ∈ s.messages) (hparent : r.prevMsg = p.hash)
      (hfollows : r.body.Follows C p.body) : OwnChain C s g r

/-- A message that claims a member's genesis, as what is stored of its ancestors does. -/
structure Belongs (C : Crypto J) (key : XOnlyPublicKey) (s : Store J) (r : Row J) : Prop where
  row : r ∈ s.messages
  member : ∃ g, s.IsMember key g ∧ r.genesis = g.hash
  straight : ¬Strays C s.contents r.body

private theorem OwnChain.belongs (h : s.OwnChain C g r) (hs : s.Ready C key)
    (hzero : ∀ e, C.canonicalizedHash e ≠ .genesis) (hg : s.IsMember key g) :
    s.Belongs C key r ∧ r.genesis = g.hash := by
  -- the stored parent of a row is the one that its chain goes through
  have hparent {r p : Row J} (hp : p ∈ s.messages) (hlink : r.prevMsg = p.hash) {e : Envelope J}
      (he : (r.body.prevMsg, e) ∈ s.contents) : e = p.body := by
    obtain ⟨q, hq, heq⟩ := List.mem_map.mp he
    obtain ⟨hhash, rfl⟩ := Prod.mk.inj heq
    rw [hs.linked.eq_of_hash hq hp (hhash.trans hlink)]
  induction h with
  | genesis =>
    have hgenesis := hs.sourced.genesis_of_height hg.row hg.height
    refine ⟨⟨hg.row, ⟨g, hg, hgenesis⟩, ?_⟩, hgenesis⟩
    have hroot (e : Envelope J) : (g.body.prevMsg, e) ∉ s.contents := by
      intro he
      obtain ⟨q, hq, heq⟩ := List.mem_map.mp he
      apply hs.sourced.zeroFree hzero q hq
      exact (Prod.mk.inj heq).1.trans (hs.linked.prevMsg_eq_genesis hg.row hg.height)
    intro hstrays
    cases hstrays with
    | parent hp _ => exact hroot _ hp
    | ancestor hp _ => exact hroot _ hp
  | child hp hr hlink hfollows ih =>
    obtain ⟨hbelongs, hgenesis⟩ := ih
    have hsame := hfollows.genesis
    rw [← hs.sourced.genesis_eq hr, ← hs.sourced.genesis_eq hbelongs.row] at hsame
    refine ⟨⟨hr, ⟨g, hg, hsame.trans hgenesis⟩, ?_⟩, hsame.trans hgenesis⟩
    intro hstrays
    cases hstrays with
    | parent he hne =>
      rw [hparent hbelongs.row hlink he] at hne
      exact hne hfollows.genesis
    | ancestor he h =>
      rw [hparent hbelongs.row hlink he] at h
      exact hbelongs.straight h

namespace Belongs

private theorem selects (h : s.Belongs C key r) (hs : s.Ready C key) : s.selects key r := by
  obtain ⟨g, ⟨hg, _, m, hm, hgroup, hid⟩, hgenesis⟩ := h.member
  simp only [Store.selects, List.any_eq_true, Bool.and_eq_true, Bool.or_eq_true,
    decide_eq_true_eq]
  refine ⟨m, hm, hgroup, ?_⟩
  by_cases h0 : r.height = 0
  · rw [hs.sourced.genesis_of_height h.row h0] at hgenesis
    rw [hs.linked.eq_of_hash h.row hg hgenesis]
    exact .inl hid
  · rw [hs.straight.later r h.row h0 h.straight, hgenesis, hs.linked.idByHash_hash hg, hid]
    exact .inr rfl

private theorem earlier (h : s'.Belongs C key r) (hs : s.Ready C key) (hs' : s'.Ready C key)
    (hgroups : s.SameGroups key s') (hpre : s.contents <+: s'.contents)
    (hid : r.messageId ≤ s.messages.length) :
    ∃ r', s.Belongs C key r' ∧ r'.messageId = r.messageId ∧ r'.body = r.body := by
  obtain ⟨g, ⟨hg, hg0, m, hm, hgroup, hmid⟩, hgenesis⟩ := h.member
  obtain ⟨r', hr', hid', hhash', hbody⟩ := hs.linked.exists_earlier hs'.linked hpre h.row hid
  have hstraight : ¬Strays C s.contents r'.body := by
    rw [hbody]
    exact fun hstrays => h.straight (hstrays.mono hpre.subset)
  have hgenesis' : r'.genesis = g.hash := by
    rw [hs.sourced.genesis_eq hr', hbody, ← hs'.sourced.genesis_eq h.row, hgenesis]
  -- the genesis that an old row claims is old
  have hstored : ∃ q ∈ s.messages, q.hash = g.hash := by
    by_cases h0 : r'.height = 0
    · exact ⟨r', hr', (hs.sourced.genesis_of_height hr' h0).symm.trans hgenesis'⟩
    · have hlink := hs.straight.later r' hr' h0 hstraight
      obtain ⟨i, hi⟩ := Option.isSome_iff_exists.mp (hs.linked.genesis_isSome hr' h0)
      obtain ⟨q, hq, hhash, _⟩ := exists_of_idByHash (hlink.symm.trans hi)
      exact ⟨q, hq, hhash.trans hgenesis'⟩
  obtain ⟨q, hq, hqhash⟩ := hstored
  obtain ⟨q', hq', hqid, hqhash', hqbody⟩ := hs.linked.exists_later hs'.linked hpre hq
  obtain rfl := hs'.linked.eq_of_hash hq' hg (hqhash'.trans hqhash)
  refine ⟨r', ⟨hr', ⟨q, ⟨hq, ?_, m, ?_, ?_, ?_⟩, hgenesis'.trans hqhash.symm⟩, hstraight⟩,
    hid', hbody⟩
  · rw [Row.height, ← hqbody]
    exact hg0
  · rwa [← hgroups.members]
  · rwa [← hgroups.groups]
  · rw [hmid, hqid]

end Belongs

end Store

/-- The task holds stored messages up to its cursor, each once with those that are sequenced, and
among them all that belong to members. -/
structure Task.Keeps (C : Crypto J) (key : XOnlyPublicKey) (s : Store J) (t : Task J)
    (done : List (Envelope J)) : Prop where
  stored : ∀ e ∈ t.pending ++ done, ∃ r ∈ s.messages, r.messageId ≤ t.seq ∧ r.body = e
  nodup : (t.pending ++ done).Nodup
  heights : ∀ g, (done.filter fun e => e.getGenesisHash C = g).map (fun e => e.header.height) =
    heightsFrom 0 (t.nextHeightToSequence g)
  next_nonneg : ∀ g, 0 ≤ t.nextHeightToSequence g
  seq_le : t.seq ≤ s.messages.length
  complete : ∀ r, s.Belongs C key r → r.messageId ≤ t.seq → r.body ∈ t.pending ++ done

/-- What the task holds and is about to read. -/
def Task.held (key : XOnlyPublicKey) (s : Store J) (t : Task J) : List (Envelope J) :=
  (s.newEnvelopes key t.seq).map Row.body ++ t.pending

/-- Others wrote what the task holds and is about to read, at different places, none of which is
sequenced. -/
structure Task.Peaceful (C : Crypto J) (key : XOnlyPublicKey) (s : Store J) (t : Task J) :
    Prop where
  keys : ∀ e ∈ t.held key s, e.header.key ≠ key
  slots : ((t.held key s).map (Envelope.slot C)).Nodup
  next_le : ∀ e ∈ t.held key s, t.nextHeightToSequence (e.getGenesisHash C) ≤ e.header.height

private theorem Task.Tracks.keeps (h : t.Tracks C key s done) (hs : s.Ready C key) :
    t.Keeps C key s done := by
  have hmem (e : Envelope J) : e ∈ t.pending ++ done ↔
      ∃ r ∈ s.messages, (s.selects key r ∧ r.messageId ≤ t.seq) ∧ r.body = e := by
    rw [h.perm.mem_iff, Store.selectedUpTo]
    simp [and_assoc]
  constructor
  · intro e he
    obtain ⟨r, hr, hsel, hbody⟩ := (hmem e).mp he
    exact ⟨r, hr, hsel.2, hbody⟩
  · exact h.perm.nodup_iff.mpr (hs.selectedUpTo_nodup t.seq)
  · exact h.heights
  · exact h.next_nonneg
  · exact h.seq_le
  · intro r hr hseq
    exact (hmem _).mpr ⟨r, hr.row, ⟨hr.selects hs, hseq⟩, rfl⟩

namespace Task.Keeps

private theorem gapless (h : t.Keeps C key s done) : Gapless C done :=
  fun g => ⟨_, h.heights g⟩

private theorem sequenced (h : t.Keeps C key s done) : s.Sequenced C done := by
  refine ⟨h.gapless, (List.nodup_append.mp h.nodup).2.1, ?_⟩
  intro e he
  obtain ⟨r, hr, _, hbody⟩ := h.stored e (List.mem_append_right _ he)
  exact ⟨r, hr, hbody⟩

private theorem mem_done_slots (h : t.Keeps C key s done) {g : CanonicalEnvelopeHash} {k : ℤ} :
    (g, k) ∈ done.map (Envelope.slot C) ↔ 0 ≤ k ∧ k < t.nextHeightToSequence g :=
  mem_slots_of_heights (h.heights g)

/-- The store changes behind the task, but no row that the task has passed comes to belong to a
member. -/
theorem change (h : t.Keeps C key s done) (hs : s.Linked) (hs' : s'.Linked)
    (hpre : s.contents <+: s'.contents)
    (hbelongs : ∀ r, s'.Belongs C key r → r.messageId ≤ t.seq →
      ∃ r', s.Belongs C key r' ∧ r'.messageId = r.messageId ∧ r'.body = r.body) :
    t.Keeps C key s' done := by
  constructor
  · intro e he
    obtain ⟨r, hr, hseq, hbody⟩ := h.stored e he
    obtain ⟨r', hr', hid, _, hbody'⟩ := hs.exists_later hs' hpre hr
    exact ⟨r', hr', hid ▸ hseq, hbody'.trans hbody⟩
  · exact h.nodup
  · exact h.heights
  · exact h.next_nonneg
  · exact h.seq_le.trans (Store.length_le_of_prefix hpre)
  · intro r hr hseq
    obtain ⟨r', hr', hid, hbody⟩ := hbelongs r hr hseq
    rw [← hbody]
    exact h.complete r' hr' (hid ▸ hseq)

private theorem fetch_perm (h : t.Keeps C key s done) (hs : s.Ready C key) :
    (t.fetch C key s).pending.Perm (t.held key s) := by
  apply Task.fetch_pending hs.linked hs.sourced
  exact fun e he => h.stored e (List.mem_append_left _ (List.mem_append_left _ he))

private theorem fetch (h : t.Keeps C key s done) (hs : s.Ready C key) :
    (t.fetch C key s).Keeps C key s done := by
  have hperm := (h.fetch_perm hs).append_right done
  have hseq : t.seq ≤ (t.fetch C key s).seq := (foldl_max _ _).1
  have hnew {r : Row J} (hr : r ∈ s.newEnvelopes key t.seq) :
      r ∈ s.messages ∧ s.selects key r ∧ t.seq < r.messageId := by
    obtain ⟨hr, hselects⟩ := List.mem_filter.mp hr
    simpa [hr] using hselects
  constructor
  · intro e he
    rw [hperm.mem_iff, Task.held, List.append_assoc, List.mem_append] at he
    cases he with
    | inl he =>
      obtain ⟨r, hr, rfl⟩ := List.mem_map.mp he
      obtain ⟨hr, hselects, _⟩ := hnew hr
      exact ⟨r, hr, Task.messageId_le_fetch_seq hr hselects, rfl⟩
    | inr he =>
      obtain ⟨r, hr, hle, rfl⟩ := h.stored e he
      exact ⟨r, hr, hle.trans hseq, rfl⟩
  · rw [hperm.nodup_iff, Task.held, List.append_assoc, List.nodup_append]
    refine ⟨?_, h.nodup, ?_⟩
    · have hmessages : s.messages.Nodup := hs.linked.hashes.of_map
      exact (hmessages.filter _).map_on fun r hr r' hr' heq =>
        hs.eq_of_body (hnew hr).1 (hnew hr').1 heq
    · rintro e he e' he' rfl
      obtain ⟨r, hr, rfl⟩ := List.mem_map.mp he
      obtain ⟨r', hr', hle, heq⟩ := h.stored _ he'
      obtain rfl := hs.eq_of_body hr' (hnew hr).1 heq
      exact absurd hle (not_le.mpr (hnew hr).2.2)
  · exact h.heights
  · exact h.next_nonneg
  · exact Task.fetch_seq_le hs.linked h.seq_le
  · intro r hr _
    rw [hperm.mem_iff, Task.held, List.append_assoc, List.mem_append]
    by_cases hle : r.messageId ≤ t.seq
    · exact .inr (h.complete r hr hle)
    · apply Or.inl
      apply List.mem_map_of_mem
      apply List.mem_filter.mpr
      refine ⟨hr.row, ?_⟩
      simpa [hr.selects hs] using hle

private theorem orderly (h : t.Keeps C key s done) (hs : s.Ready C key) (hp : t.Peaceful C key s) :
    (t.fetch C key s).Orderly C key := by
  have hperm := h.fetch_perm hs
  have hstored := (h.fetch hs).stored
  constructor
  · exact fun e he => hp.keys e (hperm.subset he)
  · exact (hperm.map _).nodup_iff.mpr hp.slots
  · exact fun e he => hp.next_le e (hperm.subset he)
  · intro e he
    obtain ⟨r, hr, _, rfl⟩ := hstored e (List.mem_append_left _ he)
    exact hs.bounded r hr (hp.keys _ (hperm.subset he))

private theorem emits (h : t.Keeps C key s done) (hemits : t.Emits C t' batch) :
    t'.Keeps C key s (done ++ batch) := by
  have hperm := hemits.perm_done done
  constructor
  · intro e he
    rw [hemits.seq]
    exact h.stored e (hperm.subset he)
  · exact hperm.nodup_iff.mpr h.nodup
  · exact fun g => hemits.heights_done (h.heights g) (h.next_nonneg g)
  · exact fun g => (h.next_nonneg g).trans (hemits.next_le g)
  · rw [hemits.seq]
    exact h.seq_le
  · intro r hr hseq
    rw [hemits.seq] at hseq
    exact hperm.mem_iff.mpr (h.complete r hr hseq)

private theorem mem_batch (h : t.Keeps C key s done) (hs : s.Ready C key)
    (hzero : ∀ e, C.canonicalizedHash e ≠ .genesis) (horderly : t.Orderly C key)
    (hemits : t.Emits C t' batch)
    (hall : ∀ r ∈ s.messages, s.selects key r → r.messageId ≤ t.seq) (hg : s.IsMember key g)
    (hown : s.OwnChain C g r) (hnew : r.hash ∉ done.map C.canonicalizedHash)
    (hnext : r = g ∨ r.prevMsg ∈ done.map C.canonicalizedHash) : r.body ∈ batch := by
  obtain ⟨hbelongs, hgenesis⟩ := hown.belongs hs hzero hg
  have hchain : r.body.getGenesisHash C = g.hash := by
    rw [← hs.sourced.genesis_eq hbelongs.row, hgenesis]
  have hpending : r.body ∈ t.pending := by
    apply (List.mem_append.mp (h.complete r hbelongs (hall r hbelongs.row (hbelongs.selects hs)))
      ).resolve_right
    intro hdone
    rw [hs.sourced.hash_eq hbelongs.row] at hnew
    exact hnew (List.mem_map_of_mem hdone)
  have hle : r.height ≤ t.nextHeightToSequence g.hash := by
    have hpos := h.next_nonneg g.hash
    have hroot : g.height = 0 := hg.height
    cases hown with
    | genesis => omega
    | child hp hr hlink hfollows =>
      rename_i p
      have hheight : r.height = p.height + 1 := hfollows.height
      obtain ⟨hparent, hparentGenesis⟩ := hp.belongs hs hzero hg
      have hprev : r.prevMsg ∈ done.map C.canonicalizedHash := by
        apply hnext.resolve_left
        rintro rfl
        have hnonneg := hs.linked.height_nonneg hparent.row
        omega
      obtain ⟨e, he, hhash⟩ := List.mem_map.mp hprev
      obtain ⟨q, hq, _, rfl⟩ := h.stored e (List.mem_append_right _ he)
      rw [← hs.sourced.hash_eq hq, hlink] at hhash
      obtain rfl := hs.linked.eq_of_hash hq hparent.row hhash
      have hslot : (q.body.getGenesisHash C, q.height) ∈ done.map (Envelope.slot C) :=
        List.mem_map_of_mem he
      rw [h.mem_done_slots, ← hs.sourced.genesis_eq hq, hparentGenesis] at hslot
      omega
  apply (hemits.mem_iff horderly).mpr
  refine ⟨hpending, ?_⟩
  intro k hk hk'
  rw [hchain] at hk ⊢
  have hheight : r.body.header.height = r.height := rfl
  obtain rfl : k = r.height := by omega
  rw [← hchain]
  exact List.mem_map_of_mem hpending

end Task.Keeps

/-- No stored envelope is a child of the tip on which the host builds, or has the hash of the
envelope of the batch. -/
structure Store.Admits (s : Store J) (S : Signer C) (K : BroadcastCodec J) (p : Publication J)
    (batch : List CanonicalEnvelopeHash) : Prop where
  childless : ∀ r ∈ s.messages, r.prevMsg ≠ p.tip.hash
  fresh : ∀ r ∈ s.messages, r.hash ≠ C.canonicalizedHash (S.batchEnvelope K p batch)

private theorem Store.Log.publish_works {S : KeyPair C} {p : Publication J}
    {batch : List CanonicalEnvelopeHash} (h : s.Log C K S.key published) (hs : s.Ready C S.key)
    (htip : s.IsTip S.key p.tip) (hadmits : s.Admits S.toSigner K p batch) :
    ∃ s', S.publish K s p batch = some (.ok (), s') := by
  obtain ⟨hmem, hkey, hheight⟩ := h.tip_spec hs htip
  obtain ⟨g, hg, _, hlinks⟩ := h.links
  obtain ⟨e, hauth, he⟩ := exists_wrapped (K := S) hs.linked hmem
    (K.encode ⟨.sequence batch, "default"⟩)
    ⟨p.tips, p.nextNonce, p.sentTimeMs, p.checkpoints, p.now⟩ p.secret
  obtain ⟨user, huser, _⟩ := Option.map_eq_some_iff.mp htip.2.2.1
  have hinner : e.inner = S.batchEnvelope K p batch := he
  have hchecks : (s.newRow e user.userId p.now).passesChecks := by
    have hpos : 0 < e.inner.header.height := by
      rw [hinner, Signer.batchEnvelope_height, hheight]
      omega
    apply (newRow_passesChecks_iff _ _ hpos.ne').mpr
    refine ⟨hpos, g, hg, ?_⟩
    rw [hinner, Signer.batchEnvelope_getGenesisHash, (hlinks p.tip hmem hkey).1]
  have hchild : s.messageExistsChildren (C.canonicalizedHash p.tip.body) = false := by
    rw [← hs.sourced.hash_eq hmem]
    apply List.any_eq_false.mpr
    simpa using hadmits.childless
  have hnew : s.rowByHash (C.canonicalizedHash e.inner) = none := by
    rw [hinner]
    exact Store.rowByHash_eq_none_iff.mpr hadmits.fresh
  have hancestors : e.inner.header.ancestors =
      some ⟨C.canonicalizedHash p.tip.body, p.tip.body.getGenesisHash C⟩ := by
    rw [hinner]
    rfl
  have huser' : s.userByKey e.inner.header.key = some user := by
    rw [hinner]
    exact huser
  have hhash : (s.newRow e user.userId p.now).hash = C.canonicalizedHash e.inner := rfl
  refine ⟨s.push (s.newRow e user.userId p.now), ?_⟩
  apply Option.map_eq_some_iff.mpr
  refine ⟨e, hauth, ?_⟩
  unfold Store.tryInsertAuthenticatedEnvelope Store.tryInsertAuthenticatedEnvelopeWithTxn
  simp [hancestors, hchild, huser', hchecks, hhash, hnew]

namespace Host

variable {S : Signer C} {h h₀ h' : Host J}

/-- What the others' messages leave alone: no row that the task has passed comes to belong to a
member, the task reads others' messages at new places, its batch can be stored, and what is
sequenced is still selected when a task starts again. -/
def Undisturbed (S : Signer C) (K : BroadcastCodec J) (h : Host J) : HostEvent C → Prop
  | .addMember group genesis => h.running → ∀ r ∈ h.store.messages, r.messageId ≤ h.task.seq →
      (h.store.addMemberToChainCommitGroup group genesis).Belongs C S.key r →
        h.store.Belongs C S.key r
  | .iterate _ => h.task.Peaceful C S.key h.store
  | .publish p => ∀ batch, h.phase = .publishing batch → h.store.Admits S K p batch
  | .recover => ∀ hash ∈ h.published.flatten, ∃ r ∈ h.store.messages, r.hash = hash ∧
      h.store.selects S.key r
  | _ => True

private theorem undisturbed_rule (hzero : ∀ e, C.canonicalizedHash e ≠ .genesis) :
    Rule S K (Undisturbed S K) (fun s t done => s.Ready C S.key → t.Keeps C S.key s done)
      fun s _ done => s.Sequenced C done := by
  constructor
  · intro h op hs hop _
    obtain ⟨hs', hgroups, hpre, _⟩ := hs.apply hzero hop
    constructor
    · intro _ done hP _
      have hkeeps := hP hs
      apply hkeeps.change hs.linked hs'.linked hpre
      exact fun r hr hseq => hr.earlier hs hs' hgroups hpre (hseq.trans hkeeps.seq_le)
    · exact fun done hQ => hQ.mono hpre
  · intro h group genesis hs hallowed
    have hmessages := Store.addMember_messages (s := h.store) group genesis
    have hpre : h.store.contents <+:
        (h.store.addMemberToChainCommitGroup group genesis).contents := by
      rw [Store.contents, Store.contents, hmessages]
    constructor
    · intro hrunning done hP hs'
      apply (hP hs).change hs.linked hs'.linked hpre
      intro r hr hseq
      exact ⟨r, hallowed hrunning r (hmessages ▸ hr.row) hseq hr, rfl, rfl⟩
    · exact fun done hQ => hQ.mono hpre
  · intro s s' t done hs hgroups hpre _ hP hs'
    have hkeeps := hP hs
    apply hkeeps.change hs.linked hs'.linked hpre
    exact fun r hr hseq => hr.earlier hs hs' hgroups hpre (hseq.trans hkeeps.seq_le)
  · exact fun s t done hs hP => (hP hs).sequenced
  · intro h ch done hs _ _ _ hallowed hP
    have hkeeps := hP hs
    obtain ⟨t, batch, hemits, hiterate⟩ := iterate_eq ch (hkeeps.orderly hs hallowed)
    exact ⟨t, batch, hiterate, fun _ => (hkeeps.fetch hs).emits hemits⟩
  · intro h done hs hdone hallowed hQ
    unfold Undisturbed at hallowed
    rw [hdone] at hallowed
    obtain ⟨t, hrecover, hP, _⟩ := recover_eq hs.linked hs.sourced
      (hQ.selected_of_hashes hs hallowed) hQ.gapless hQ.nodup
    exact ⟨t, hrecover, fun _ => hP.keeps hs⟩

/-- A batch contains the next stored message of every member's own chain. -/
def ServesMembers (key : XOnlyPublicKey) (h : Host J) (batch : List CanonicalEnvelopeHash) : Prop :=
  ∀ g r, h.store.IsMember key g → h.store.OwnChain C g r → r.hash ∉ h.published.flatten →
    (r = g ∨ r.prevMsg ∈ h.published.flatten) → r.hash ∈ batch

variable [DecidableEq J] {S : KeyPair C} {P Q : Store J → Task J → List (Envelope J) → Prop}

private theorem Holds.not_stopped (hrule : Rule S.toSigner K (Undisturbed S.toSigner K) P Q)
    (hh : h.Holds S.toSigner K P Q) {ev : HostEvent C} (hallowed : Undisturbed S.toSigner K h ev)
    (hstep : h.step S.toSigner K ev = some h') (hphase : ∀ out, h.phase ≠ .stopped out)
    (out : Option Panic) : h'.phase ≠ .stopped out := by
  cases ev with
  | store op =>
    simp only [Host.step] at hstep
    split_ifs at hstep
    obtain rfl := Option.some.inj hstep
    exact hphase out
  | addMember group genesis =>
    obtain rfl := Option.some.inj hstep
    exact hphase out
  | iterate ch =>
    simp only [Host.step] at hstep
    split at hstep
    · rename_i hpolling
      obtain rfl := Option.some.inj hstep
      obtain ⟨done, hdone, _, hfollows⟩ := hh.knows
      unfold Follows at hfollows
      rw [hpolling] at hfollows
      obtain ⟨t, batch, hiterate, _⟩ :=
        hrule.iterate h ch done hh.ready hh.log hpolling hdone hallowed hfollows
      rw [hiterate]
      simp only [afterIterate]
      split_ifs <;> simp
    · cases hstep
  | publish p =>
    simp only [Host.step] at hstep
    split at hstep
    · rename_i batch hpublishing
      split_ifs at hstep with htip
      obtain rfl := Option.some.inj hstep
      obtain ⟨s', hpublish⟩ := hh.log.publish_works hh.ready htip (hallowed batch hpublishing)
      rw [hpublish]
      simp [afterPublish]
    · cases hstep
  | crash =>
    obtain rfl := Option.some.inj hstep
    simp
  | load =>
    simp only [Host.step, hh.log.alreadySequenced_eq hh.ready.sourced] at hstep
    split at hstep
    · obtain rfl := Option.some.inj hstep
      simp
    · cases hstep
  | recover =>
    simp only [Host.step] at hstep
    split at hstep
    · rename_i already hloaded
      obtain ⟨t, hrecover, _⟩ := hh.recover hrule hloaded hallowed
      rw [hrecover] at hstep
      obtain rfl := Option.some.inj hstep
      simp
    · cases hstep

private theorem Rule.not_stopped (hrule : Rule S.toSigner K (Undisturbed S.toSigner K) P Q)
    (hzero : ∀ e, C.canonicalizedHash e ≠ .genesis)
    (hbound : ∀ e, (C.canonicalizedHash e).digest < 2 ^ 256) (hinit : h₀.Initial S.toSigner K)
    (hQ : Q h₀.store .initial [])
    (hrun : Run (fun h ev h' => h.Undisturbed S.toSigner K ev ∧ h.step S.toSigner K ev = some h')
      (fun _ => True) h₀ h) : ∀ out, h.phase ≠ .stopped out := by
  induction hrun with
  | refl => simp [hinit.phase]
  | tail hrun hstep ih =>
    obtain ⟨ev, _, hallowed, hstep⟩ := hstep
    exact (hrule.holds hzero hbound hinit hQ hrun).not_stopped hrule hallowed hstep ih

/-- In every state of a run that is not disturbed the host has not stopped, the next iteration
serves every member, and a batch is published at the first attempt. -/
theorem undisturbed_host (hzero : ∀ e, C.canonicalizedHash e ≠ .genesis)
    (hbound : ∀ e, (C.canonicalizedHash e).digest < 2 ^ 256) (hinit : h₀.Initial S.toSigner K)
    (hrun : Run (fun h ev h' => h.Undisturbed S.toSigner K ev ∧ h.step S.toSigner K ev = some h')
      (fun _ => True) h₀ h) :
    (∀ out, h.phase ≠ .stopped out) ∧
    (h.phase = .polling → ∀ ch, h.Undisturbed S.toSigner K (.iterate ch) → ∃ t batch,
      h.task.iterate C S.key ch h.store = .ok (t, batch) ∧ h.ServesMembers (C := C) S.key batch) ∧
    ∀ batch p, h.phase = .publishing batch → h.store.IsTip S.key p.tip →
      h.Undisturbed S.toSigner K (.publish p) →
      ∃ s', S.publish K h.store p batch = some (.ok (), s') := by
  have hrule := undisturbed_rule (S := S.toSigner) (K := K) hzero
  have hempty : h₀.store.Sequenced C [] := ⟨fun g => ⟨0, rfl⟩, .nil, by simp⟩
  have hh := hrule.holds hzero hbound hinit hempty hrun
  refine ⟨hrule.not_stopped hzero hbound hinit hempty hrun, ?_, ?_⟩
  · intro hpolling ch hallowed
    obtain ⟨done, hdone, _, hfollows⟩ := hh.knows
    unfold Follows at hfollows
    rw [hpolling] at hfollows
    have hkeeps := hfollows hh.ready
    have horderly := hkeeps.orderly hh.ready hallowed
    obtain ⟨t, batch, hemits, hiterate⟩ := iterate_eq ch horderly
    refine ⟨t, batch.map C.canonicalizedHash, hiterate, ?_⟩
    intro g r hg hown hnew hnext
    rw [hdone] at hnew hnext
    have hmem := (hkeeps.fetch hh.ready).mem_batch hh.ready hzero horderly hemits
      (fun r hr hselects => Task.messageId_le_fetch_seq hr hselects) hg hown hnew hnext
    rw [hh.ready.sourced.hash_eq (hown.belongs hh.ready hzero hg).1.row]
    exact List.mem_map_of_mem hmem
  · intro batch p hphase htip hallowed
    exact hh.log.publish_works hh.ready htip (hallowed batch hphase)

end Host

end

section

variable {J : Type} {C : Crypto J} [DecidableEq J]

instance (key : XOnlyPublicKey) (s : Store J) (g : Row J) : Decidable (s.IsMember key g) :=
  decidable_of_iff (g ∈ s.messages ∧ g.height = 0 ∧ ∃ m ∈ s.groupMembers,
    m.1 ∈ s.groupsThisChainSubscribesTo key ∧ m.2 = g.messageId)
    ⟨fun h => ⟨h.1, h.2.1, h.2.2⟩, fun h => ⟨h.row, h.height, h.group⟩⟩

instance (key : XOnlyPublicKey) (s : Store J) (t : Task J) : Decidable (t.Peaceful C key s) :=
  decidable_of_iff ((∀ e ∈ t.held key s, e.header.key ≠ key) ∧
    ((t.held key s).map (Envelope.slot C)).Nodup ∧
    ∀ e ∈ t.held key s, t.nextHeightToSequence (e.getGenesisHash C) ≤ e.header.height)
    ⟨fun h => ⟨h.1, h.2.1, h.2.2⟩, fun h => ⟨h.keys, h.slots, h.next_le⟩⟩

instance (S : Signer C) (K : BroadcastCodec J) (s : Store J) (p : Publication J)
    (batch : List CanonicalEnvelopeHash) : Decidable (s.Admits S K p batch) :=
  decidable_of_iff ((∀ r ∈ s.messages, r.prevMsg ≠ p.tip.hash) ∧
    ∀ r ∈ s.messages, r.hash ≠ C.canonicalizedHash (S.batchEnvelope K p batch))
    ⟨fun h => ⟨h.1, h.2⟩, fun h => ⟨h.childless, h.fresh⟩⟩

instance (phase : Phase) (P : List CanonicalEnvelopeHash → Prop) [DecidablePred P] :
    Decidable (∀ batch, phase = .publishing batch → P batch) :=
  match phase with
  | .publishing batch => decidable_of_iff (P batch) (by simp)
  | .start => isTrue (by simp)
  | .loaded _ => isTrue (by simp)
  | .polling => isTrue (by simp)
  | .stopped _ => isTrue (by simp)

instance (S : Signer C) (K : BroadcastCodec J) (h : Host J) (ev : HostEvent C) :
    Decidable (ev.KeepsMembers ∧ h.Undisturbed S K ev) :=
  match ev with
  | .store _ => isTrue ⟨trivial, trivial⟩
  | .addMember _ _ => isFalse fun hkeeps => hkeeps.1
  | .iterate _ => decidable_of_iff (h.task.Peaceful C S.key h.store)
      ⟨fun hp => ⟨trivial, hp⟩, fun hp => hp.2⟩
  | .recover => decidable_of_iff (∀ hash ∈ h.published.flatten, ∃ r ∈ h.store.messages,
      r.hash = hash ∧ h.store.selects S.key r) ⟨fun hp => ⟨trivial, hp⟩, fun hp => hp.2⟩
  | .publish p => decidable_of_iff (∀ batch, h.phase = .publishing batch →
      h.store.Admits S K p batch) ⟨fun hp => ⟨trivial, hp⟩, fun hp => hp.2⟩
  | .crash => isTrue ⟨trivial, trivial⟩
  | .load => isTrue ⟨trivial, trivial⟩

end

def tinyKeys : KeyPair tinyCrypto :=
  { tinySigner with
    secret := 7
    verifies := fun _ _ => decide_eq_true rfl }

/-- Bob's second message is in the batch that follows his first one. -/
theorem undisturbed_host_sample : ∃ h : Host (Option (List CanonicalEnvelopeHash)),
    h.published = [[tinyHash 6 0, tinyHash 6 1]] ∧ h.phase = .polling ∧ ∃ t batch,
      h.task.iterate tinyCrypto tinyKeys.key (inOrder _) h.store = .ok (t, batch) ∧
        tinyHash 6 2 ∈ batch := by
  have hstate : (tinyHost.after tinyKeys.toSigner tinyCodec
      (fun h ev => ev.KeepsMembers ∧ h.Undisturbed tinyKeys.toSigner tinyCodec ev) tinyEvents).any
        fun h => h.published = [[tinyHash 6 0, tinyHash 6 1]] ∧ h.phase = .polling ∧
          h.task.Peaceful tinyCrypto tinyKeys.key h.store ∧
          ∃ r₀ ∈ h.store.messages, ∃ r₁ ∈ h.store.messages, ∃ r₂ ∈ h.store.messages,
            h.store.IsMember tinyKeys.key r₀ ∧
            (r₁.prevMsg = r₀.hash ∧ r₁.body.Follows tinyCrypto r₀.body) ∧
            (r₂.prevMsg = r₁.hash ∧ r₂.body.Follows tinyCrypto r₁.body) ∧
            r₂.hash = tinyHash 6 2 ∧ r₁.hash ∈ h.published.flatten ∧
            r₂.hash ∉ h.published.flatten := by
    decide +kernel
  obtain ⟨h, hafter, hstate⟩ := (Option.any_eq_true _ _).mp hstate
  obtain ⟨hpublished, hphase, hpeaceful, r₀, _, r₁, hr₁, r₂, hr₂, hmember, hfirst, hsecond, hhash,
    hold, hnew⟩ := of_decide_eq_true hstate
  have hrun : Run (fun h ev h' => h.Undisturbed tinyKeys.toSigner tinyCodec ev ∧
      h.step tinyKeys.toSigner tinyCodec ev = some h') (fun _ => True) tinyHost h :=
    (Host.run_of_after hafter).of_step fun _ _ _ hstep => ⟨hstep.1.2, hstep.2⟩
  obtain ⟨_, hiterate, _⟩ := Host.undisturbed_host tinyCrypto_ne_genesis tinyCrypto_lt
    tinyHost_initial hrun
  obtain ⟨t, batch, hok, hserves⟩ := hiterate hphase (inOrder _) hpeaceful
  have hchain : h.store.OwnChain tinyCrypto r₀ r₂ :=
    .child (.child .genesis hr₁ hfirst.1 hfirst.2) hr₂ hsecond.1 hsecond.2
  refine ⟨h, hpublished, hphase, t, batch, hok, ?_⟩
  rw [← hhash]
  exact hserves r₀ r₂ hmember hchain hnew (.inr (hsecond.1 ▸ hold))

/-- Bob writes two messages upon his genesis. -/
def bobEquivocates : List (HostEvent tinyCrypto) :=
  [.store (.insert (tinyLater 6 0 6 0 1) false 0), .store (.insert (tinyLater 6 0 6 0 2) false 0),
    .load, .recover]

/-- Alice claims Bob's genesis for a message of hers before he writes his own. -/
def aliceClaims : List (HostEvent tinyCrypto) :=
  [.store (.insert (tinyLater 5 0 6 0 1) false 0), .load, .recover, .iterate (inOrder _),
    .publish (tinyPublication tinyTip 0 1), .store (.insert (tinyLater 6 0 6 0 1) false 0)]

/-- The first run ends with a panic, and in the second one Bob's message is not sequenced. -/
theorem others_disturb :
    (∃ h, Run (fun h (ev : HostEvent tinyCrypto) h' =>
        h.step tinyKeys.toSigner tinyCodec ev = some h') (fun _ => True) tinyHost h ∧
      h.phase = .polling ∧
      h.task.iterate tinyCrypto tinyKeys.key (inOrder _) h.store =
        .error (.message "Test Invariant Failed")) ∧
    ∃ h, Run (fun h (ev : HostEvent tinyCrypto) h' =>
        h.step tinyKeys.toSigner tinyCodec ev = some h') (fun _ => True) tinyHost h ∧
      h.phase = .polling ∧
      ∃ t batch, h.task.iterate tinyCrypto tinyKeys.key (inOrder _) h.store = .ok (t, batch) ∧
        ¬h.ServesMembers (C := tinyCrypto) tinyKeys.key batch := by
  constructor
  · have hstate : (tinyHost.after tinyKeys.toSigner tinyCodec (fun _ _ => True) bobEquivocates).any
        fun h => h.phase = .polling ∧
          (h.task.iterate tinyCrypto tinyKeys.key (inOrder _) h.store).map (fun _ => ()) =
            .error (.message "Test Invariant Failed") := by
      decide +kernel
    obtain ⟨h, hafter, hstate⟩ := (Option.any_eq_true _ _).mp hstate
    obtain ⟨hphase, hpanic⟩ := of_decide_eq_true hstate
    refine ⟨h, (Host.run_of_after hafter).of_step fun _ _ _ hstep => hstep.2, hphase, ?_⟩
    cases hiterate : h.task.iterate tinyCrypto tinyKeys.key (inOrder _) h.store with
    | ok out => simp [hiterate, Except.map] at hpanic
    | error p =>
      rw [hiterate] at hpanic
      exact congrArg _ (Except.error.inj hpanic)
  · have hstate : (tinyHost.after tinyKeys.toSigner tinyCodec (fun _ _ => True) aliceClaims).any
        fun h => h.phase = .polling ∧ ∃ r₀ ∈ h.store.messages, ∃ r₁ ∈ h.store.messages,
          h.store.IsMember tinyKeys.key r₀ ∧
          (r₁.prevMsg = r₀.hash ∧ r₁.body.Follows tinyCrypto r₀.body) ∧
          r₀.hash ∈ h.published.flatten ∧ r₁.hash ∉ h.published.flatten ∧
          (h.task.iterate tinyCrypto tinyKeys.key (inOrder _) h.store).toOption.any
            fun out => r₁.hash ∉ out.2 := by
      decide +kernel
    obtain ⟨h, hafter, hstate⟩ := (Option.any_eq_true _ _).mp hstate
    obtain ⟨hphase, r₀, _, r₁, hr₁, hmember, hfirst, hold, hnew, hout⟩ := of_decide_eq_true hstate
    refine ⟨h, (Host.run_of_after hafter).of_step fun _ _ _ hstep => hstep.2, hphase, ?_⟩
    cases hiterate : h.task.iterate tinyCrypto tinyKeys.key (inOrder _) h.store with
    | error p => simp [hiterate, Except.toOption] at hout
    | ok out =>
      rw [hiterate] at hout
      refine ⟨out.1, out.2, rfl, fun hserves => ?_⟩
      have hmem := hserves r₀ r₁ hmember (.child .genesis hr₁ hfirst.1 hfirst.2) hnew
        (.inr (hfirst.1 ▸ hold))
      exact of_decide_eq_true hout hmem

end JudicaVM
