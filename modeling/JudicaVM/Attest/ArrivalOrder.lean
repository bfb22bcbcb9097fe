import JudicaVM.Attest.Arrival

/-!
# Which arrivals may be reordered

The order of arrival does not matter exactly when no envelope claims a later envelope as its genesis
and every rooted envelope claims the genesis of its parent.
-/

namespace JudicaVM

open Transition Closure

section

variable {M : Type} {C : Crypto M}

/-- A finite set of envelopes: those at height 0, with the nicknames of their authors, and the
others. Its members have different hashes, none of them the hash of an absent parent. -/
structure Pool (C : Crypto M) where
  genesis : List (Registration C)
  later : List (Authenticated C)
  genesis_height : ∀ g ∈ genesis, g.envelope.inner.header.height = 0
  later_height : ∀ e ∈ later, e.inner.header.height ≠ 0
  hashes : ((genesis.map fun g => g.envelope.entry.1) ++ later.map fun e => e.entry.1).Nodup
  genesis_zero : ∀ g ∈ genesis, g.envelope.entry.1 ≠ .genesis
  later_zero : ∀ e ∈ later, e.entry.1 ≠ .genesis

namespace Pool

variable (P : Pool C)

/-- The stores after any two arrivals of the later envelopes agree. -/
def OrderIndependent : Prop :=
  ∀ as as' : List (Arrival C), (as.map Arrival.envelope).Perm P.later →
    (as'.map Arrival.envelope).Perm P.later →
    ∀ h, (deliver P.genesis as).view h = (deliver P.genesis as').view h

/-- The author of the envelope is registered by one of the genesis envelopes. -/
def HasAuthor (e : Authenticated C) : Prop :=
  ∃ g ∈ P.genesis, g.envelope.inner.header.key = e.inner.header.key

/-- An envelope that the store accepts whenever it arrives. -/
def Direct (e : Authenticated C) : Prop :=
  P.HasAuthor e ∧ 0 < e.inner.header.height ∧
    ∃ g ∈ P.genesis, g.envelope.entry.1 = e.inner.getGenesisHash C

instance (e : Authenticated C) : Decidable (P.HasAuthor e) :=
  inferInstanceAs (Decidable (∃ g ∈ P.genesis, _))

instance (e : Authenticated C) : Decidable (P.Direct e) :=
  inferInstanceAs (Decidable (_ ∧ _ ∧ ∃ g ∈ P.genesis, _))

def accepted : List (CanonicalEnvelopeHash × Envelope M) :=
  (P.genesis.map fun g => g.envelope.entry) ++
    (P.later.filter fun e => P.Direct e).map Authenticated.entry

/-- No acceptable envelope claims another one above height 0 as its genesis, and the rooted ones
claim the genesis of their parents. -/
structure ClaimsAgree : Prop where
  noLate : ∀ e ∈ P.later, ∀ r ∈ P.later, P.HasAuthor e → 0 < e.inner.header.height →
    P.Direct r → r.entry.1 ≠ e.inner.getGenesisHash C
  sameGenesis : ∀ e ∈ P.later, ∀ p ∈ P.later, P.Direct e → P.Direct p →
    Rooted P.accepted e.entry.1 → p.entry.1 = e.inner.prevMsg →
    e.inner.getGenesisHash C = p.inner.getGenesisHash C

end Pool

variable {P : Pool C} {s s' : Store M} {r : Row M} {h : CanonicalEnvelopeHash}

theorem Store.Linked.rowByHash_eq (hs : s.Linked) (hr : r ∈ s.messages) :
    s.rowByHash r.hash = some r := by
  cases hfind : s.rowByHash r.hash with
  | none => exact absurd rfl (rowByHash_eq_none_iff.mp hfind r hr)
  | some q =>
    have hq := List.mem_of_find?_eq_some hfind
    have hhash : q.hash = r.hash := by simpa using List.find?_some hfind
    rw [hs.eq_of_hash hq hr hhash]

theorem Store.Linked.hashOfId_eq (hs : s.Linked) (hr : r ∈ s.messages) :
    s.hashOfId r.messageId = some r.hash := by
  unfold Store.hashOfId
  cases hfind : s.messages.find? (·.messageId = r.messageId) with
  | none => simpa using List.find?_eq_none.mp hfind r hr
  | some q =>
    have hq := List.mem_of_find?_eq_some hfind
    have hid : q.messageId = r.messageId := by simpa using List.find?_some hfind
    rw [Option.map_some, hs.eq_of_messageId hq hr hid]

private theorem Store.Linked.idByHash_bind (hs : s.Linked) :
    (s.idByHash h).bind s.hashOfId = if (s.idByHash h).isSome then some h else none := by
  cases hid : s.idByHash h with
  | none => rfl
  | some i =>
    obtain ⟨q, hq, rfl, rfl⟩ := exists_of_idByHash hid
    exact hs.hashOfId_eq hq

private theorem idByHash_isSome_contents : (s.idByHash h).isSome ↔ h ∈ s.contents.map Prod.fst := by
  rw [idByHash_isSome_iff]
  simp [Store.contents]

private theorem view_congr (hs : s.Linked) (hs' : s'.Linked) (hg : s.GenesisLinked)
    (hg' : s'.GenesisLinked) (hsourced : s.Sourced C) (hsourced' : s'.Sourced C)
    (hc : ∀ r ∈ s.messages, r.connected ↔ Rooted s.contents r.hash)
    (hc' : ∀ r ∈ s'.messages, r.connected ↔ Rooted s'.contents r.hash)
    (hperm : s.contents.Perm s'.contents) : s.view h = s'.view h := by
  have hstored : ∀ h, (s.idByHash h).isSome = (s'.idByHash h).isSome := by
    intro h
    rw [Bool.eq_iff_iff, idByHash_isSome_contents, idByHash_isSome_contents]
    exact (hperm.map Prod.fst).mem_iff
  have hlink : ∀ h, (s.idByHash h).bind s.hashOfId = (s'.idByHash h).bind s'.hashOfId := by
    intro h
    rw [hs.idByHash_bind, hs'.idByHash_bind, hstored]
  unfold Store.view
  cases hfind : s.rowByHash h with
  | none =>
    have hnone : s'.rowByHash h = none := by
      have hsome := hstored h
      rw [Store.idByHash, hfind, Store.idByHash] at hsome
      cases hfind' : s'.rowByHash h with
      | none => rfl
      | some r' =>
        rw [hfind'] at hsome
        cases hsome
    rw [hnone]
    rfl
  | some r =>
    have hr := List.mem_of_find?_eq_some hfind
    have hhash : r.hash = h := by simpa using List.find?_some hfind
    obtain ⟨r', hr', heq⟩ := List.mem_map.mp (hperm.mem_iff.mp (Store.mem_contents hr))
    obtain ⟨hhash', hbody⟩ := Prod.mk.inj heq
    have hfind' : s'.rowByHash h = some r' := by
      rw [← hhash, ← hhash']
      exact hs'.rowByHash_eq hr'
    have hprev : r'.prevMsg = r.prevMsg := congrArg Envelope.prevMsg hbody
    have hheight : r'.height = r.height := congrArg (fun e => e.header.height) hbody
    have hgenesis : r'.genesis = r.genesis := by
      rw [hsourced.genesis_eq hr, hsourced'.genesis_eq hr', hbody]
    have hconnected : r.connected = r'.connected := by
      rw [Bool.eq_iff_iff, hc r hr, hc' r' hr', hhash']
      exact ⟨Rooted.mono hperm.subset, Rooted.mono hperm.symm.subset⟩
    have hprevLink : r.prevMsgId.bind s.hashOfId = r'.prevMsgId.bind s'.hashOfId := by
      rw [hs.parent r hr, hs'.parent r' hr', hprev]
      exact hlink _
    have hgenesisLink : r.genesisId.bind s.hashOfId = r'.genesisId.bind s'.hashOfId := by
      by_cases h0 : r.height = 0
      · rw [hg.genesis r hr h0, hg'.genesis r' hr' (hheight.trans h0)]
        rfl
      · rw [hg.later r hr h0, hg'.later r' hr' (hheight.symm ▸ h0), hgenesis]
        exact hlink _
    rw [hfind', Option.map_some, Option.map_some, hconnected, hprevLink, hgenesisLink]

theorem Pool.registered (P : Pool C) :
    Registered P.genesis (P.genesis.foldl Store.register (.empty : Store M)) := by
  apply registerAll P.genesis_height
  exact (List.nodup_append.mp P.hashes).1

/-- The store after some later envelopes have arrived. -/
structure Received (P : Pool C) (done : List (Authenticated C)) (s : Store M) : Prop where
  receiving : s.Receiving C
  users : ∀ key, (s.userByKey key).isSome ↔
    ∃ g ∈ P.genesis, g.envelope.inner.header.key = key
  contents : s.contents = (P.genesis.map fun g => g.envelope.entry) ++
    (done.filter fun e => P.Direct e).map Authenticated.entry

theorem exists_row_of_contents {e : Envelope M} (hmem : (h, e) ∈ s.contents) :
    ∃ r ∈ s.messages, r.hash = h ∧ r.body = e := by
  obtain ⟨r, hr, heq⟩ := List.mem_map.mp hmem
  obtain ⟨hhash, hbody⟩ := Prod.mk.inj heq
  exact ⟨r, hr, hhash, hbody⟩

private theorem Received.receive (hP : P.ClaimsAgree) {done : List (Authenticated C)}
    (hs : Received P done s) {a : Arrival C} (ha : a.envelope ∈ P.later)
    (hdone : ∀ e ∈ done, e ∈ P.later) (hnew : ∀ e ∈ done, e.entry.1 ≠ a.envelope.entry.1) :
    Received P (done ++ [a.envelope]) (s.receive a) := by
  have h0 := P.later_height _ ha
  have husers : ∀ key, ((s.receive a).userByKey key).isSome ↔
      ∃ g ∈ P.genesis, g.envelope.inner.header.key = key := by
    intro key
    rw [← hs.users key, Store.userByKey, receive_users, ← Store.userByKey]
  refine ⟨hs.receiving.receive h0, husers, ?_⟩
  by_cases hdirect : P.Direct a.envelope
  · have hlast : ([a.envelope].filter fun e => P.Direct e) = [a.envelope] := by
      simp [hdirect]
    obtain ⟨hauthor, hpos, g, hg, hgenesis⟩ := hdirect
    obtain ⟨user, huser⟩ := Option.isSome_iff_exists.mp ((hs.users _).mpr hauthor)
    have hstored : ∃ r ∈ s.messages, r.hash = a.envelope.inner.getGenesisHash C := by
      have hmem : g.envelope.entry ∈ s.contents := by
        rw [hs.contents]
        exact List.mem_append_left _ (List.mem_map_of_mem hg)
      obtain ⟨r, hr, hhash, _⟩ := exists_row_of_contents hmem
      exact ⟨r, hr, hhash.trans hgenesis⟩
    have hchecks := (newRow_passesChecks_iff (s := s) user.userId a.time h0).mpr
      ⟨hpos, hstored⟩
    have hfresh : s.rowByHash (C.canonicalizedHash a.envelope.inner) = none := by
      apply Store.rowByHash_eq_none_iff.mpr
      intro r hr hhash
      have hmem := Store.mem_contents hr
      rw [hs.contents, List.mem_append] at hmem
      cases hmem with
      | inl hmem =>
        obtain ⟨g', hg', heq⟩ := List.mem_map.mp hmem
        apply (List.nodup_append.mp P.hashes).2.2 _ (List.mem_map_of_mem hg') _
          (List.mem_map_of_mem ha)
        rw [heq]
        exact hhash
      | inr hmem =>
        obtain ⟨e, he, heq⟩ := List.mem_map.mp hmem
        apply hnew e (List.mem_filter.mp he).1
        rw [heq]
        exact hhash
    rw [receive_eq huser hchecks hfresh, Store.contents_push, hs.contents, List.filter_append,
      hlast, List.map_append, List.append_assoc]
    rfl
  · -- a refused envelope is refused in every order
    have hrefused : s.receive a = s := by
      apply (receive_cases a).resolve_right
      intro h
      obtain ⟨user, huser, hchecks, _, _⟩ := h
      have hauthor : P.HasAuthor a.envelope :=
        (hs.users _).mp (Option.isSome_iff_exists.mpr ⟨user, huser⟩)
      obtain ⟨hpos, r, hr, hhash⟩ := (newRow_passesChecks_iff _ _ h0).mp hchecks
      have hmem := Store.mem_contents hr
      rw [hs.contents, List.mem_append] at hmem
      cases hmem with
      | inl hmem =>
        obtain ⟨g, hg, heq⟩ := List.mem_map.mp hmem
        apply hdirect
        refine ⟨hauthor, hpos, g, hg, ?_⟩
        rw [heq]
        exact hhash
      | inr hmem =>
        obtain ⟨e, he, heq⟩ := List.mem_map.mp hmem
        obtain ⟨he, hedirect⟩ := List.mem_filter.mp he
        apply hP.noLate _ ha e (hdone e he) hauthor hpos (of_decide_eq_true hedirect)
        rw [heq]
        exact hhash
    rw [hrefused, hs.contents, List.filter_append]
    simp [hdirect]

private theorem received (hP : P.ClaimsAgree) {as : List (Arrival C)}
    (hlater : ∀ a ∈ as, a.envelope ∈ P.later)
    (hnodup : ((as.map Arrival.envelope).map fun e => e.entry.1).Nodup) :
    Received P (as.map Arrival.envelope)
      (as.foldl Store.receive (P.genesis.foldl Store.register (.empty : Store M))) := by
  induction as using List.reverseRecOn with
  | nil =>
    have hs := P.registered
    exact ⟨hs.receiving, hs.users, by simpa using hs.contents⟩
  | append_singleton as a ih =>
    rw [List.map_append, List.map_append, List.nodup_append] at hnodup
    rw [List.foldl_append, List.map_append]
    have hih := ih (fun b hb => hlater b (List.mem_append_left _ hb)) hnodup.1
    apply hih.receive hP (hlater a (by simp))
    · intro e he
      obtain ⟨b, hb, rfl⟩ := List.mem_map.mp he
      exact hlater b (List.mem_append_left _ hb)
    · intro e he
      exact hnodup.2.2 _ (List.mem_map_of_mem he) _ (by simp)

private theorem Received.zeroFree {done : List (Authenticated C)} (hs : Received P done s)
    (hdone : ∀ e ∈ done, e ∈ P.later) : s.ZeroFree := by
  intro r hr
  have hmem := Store.mem_contents hr
  rw [hs.contents, List.mem_append] at hmem
  cases hmem with
  | inl hmem =>
    obtain ⟨g, hg, heq⟩ := List.mem_map.mp hmem
    have hzero := P.genesis_zero g hg
    rwa [heq] at hzero
  | inr hmem =>
    obtain ⟨e, he, heq⟩ := List.mem_map.mp hmem
    have hzero := P.later_zero e (hdone e (List.mem_filter.mp he).1)
    rwa [heq] at hzero

private theorem Received.later_row {done : List (Authenticated C)} (hs : Received P done s)
    (hr : r ∈ s.messages) (h0 : r.height ≠ 0) :
    ∃ e ∈ done, P.Direct e ∧ e.entry = (r.hash, r.body) := by
  have hmem := Store.mem_contents hr
  rw [hs.contents, List.mem_append] at hmem
  cases hmem with
  | inl hmem =>
    obtain ⟨g, hg, heq⟩ := List.mem_map.mp hmem
    have hheight := P.genesis_height g hg
    rw [show g.envelope.inner = r.body from congrArg Prod.snd heq] at hheight
    exact absurd hheight h0
  | inr hmem =>
    obtain ⟨e, he, heq⟩ := List.mem_map.mp hmem
    obtain ⟨he, hdirect⟩ := List.mem_filter.mp he
    exact ⟨e, he, of_decide_eq_true hdirect, heq⟩

private theorem Received.lateSameGenesis (hP : P.ClaimsAgree) {done : List (Authenticated C)}
    (hs : Received P done s) (hdone : ∀ e ∈ done, e ∈ P.later) : s.LateSameGenesis := by
  intro r hr p hp hc hrooted hhash
  have hr0 := hs.receiving.linked.height_ne_zero hr hc
  have hp0 : p.height ≠ 0 := by
    intro hp0
    have htrue := hs.receiving.ofRoot r hr p hp hhash hp0
    rw [hc] at htrue
    cases htrue
  obtain ⟨e, he, hedirect, hentry⟩ := hs.later_row hr hr0
  obtain ⟨q, hq, hqdirect, hqentry⟩ := hs.later_row hp hp0
  rw [hs.receiving.sourced.genesis_eq hr, hs.receiving.sourced.genesis_eq hp,
    ← show e.inner = r.body from congrArg Prod.snd hentry,
    ← show q.inner = p.body from congrArg Prod.snd hqentry]
  apply hP.sameGenesis e (hdone e he) q (hdone q hq) hedirect hqdirect
  · rw [show e.entry.1 = r.hash from congrArg Prod.fst hentry]
    apply hrooted.mono
    rw [hs.contents]
    intro x hx
    rw [Pool.accepted, List.mem_append]
    apply (List.mem_append.mp hx).elim .inl
    intro hx
    obtain ⟨e, he, rfl⟩ := List.mem_map.mp hx
    obtain ⟨he, hdirect⟩ := List.mem_filter.mp he
    exact .inr (List.mem_map_of_mem (List.mem_filter.mpr ⟨hdone e he, hdirect⟩))
  · rw [show q.entry.1 = p.hash from congrArg Prod.fst hqentry, hhash,
      show e.inner = r.body from congrArg Prod.snd hentry]
    rfl

theorem Pool.ClaimsAgree.orderIndependent (hP : P.ClaimsAgree) : P.OrderIndependent := by
  intro as as' has has' h
  have hnodup : ∀ {bs : List (Arrival C)}, (bs.map Arrival.envelope).Perm P.later →
      ((bs.map Arrival.envelope).map fun e => e.entry.1).Nodup := by
    intro bs hbs
    exact ((hbs.map _).nodup_iff).mpr (List.nodup_append.mp P.hashes).2.1
  have hlater : ∀ {bs : List (Arrival C)}, (bs.map Arrival.envelope).Perm P.later →
      ∀ b ∈ bs, b.envelope ∈ P.later :=
    fun hbs b hb => hbs.mem_iff.mp (List.mem_map_of_mem hb)
  have hs := received hP (hlater has) (hnodup has)
  have hs' := received hP (hlater has') (hnodup has')
  have hg : ∀ {bs : List (Arrival C)} {s : Store M}, (bs.map Arrival.envelope).Perm P.later →
      Received P (bs.map Arrival.envelope) s → s.connectAll.GenesisLinked := by
    intro bs s hbs hs
    have hdone : ∀ e ∈ bs.map Arrival.envelope, e ∈ P.later := fun e he => hbs.mem_iff.mp he
    exact .connectAll hs.receiving.linked hs.receiving.sourced (hs.zeroFree hdone)
      hs.receiving.genesisLinked (hs.lateSameGenesis hP hdone)
  have hc : ∀ {s : Store M}, s.Linked → ∀ r ∈ s.connectAll.messages,
      r.connected ↔ Rooted s.connectAll.contents r.hash := by
    intro s hs r hr
    obtain ⟨r', hr', rfl⟩ := Store.mem_connectAll.mp hr
    rw [Store.contents_connectAll, Row.connect_hash]
    exact hs.connect_connected_iff hr'
  unfold deliver
  rw [hs.receiving.linked.attachTips_eq, hs'.receiving.linked.attachTips_eq]
  apply view_congr hs.receiving.linked.connectAll hs'.receiving.linked.connectAll (hg has hs)
    (hg has' hs') hs.receiving.sourced.connectAll hs'.receiving.sourced.connectAll
    (hc hs.receiving.linked) (hc hs'.receiving.linked)
  rw [Store.contents_connectAll, Store.contents_connectAll, hs.contents, hs'.contents]
  apply List.Perm.append_left
  exact ((has.trans has'.symm).filter _).map _

end
end JudicaVM
