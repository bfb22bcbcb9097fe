import JudicaVM.Host.Tables

/-!
# Finishing a setup

A setup that fails has moved its lobby to the final state already, so a lobby survives exactly the
setups whose statements all succeed.
-/

namespace JudicaVM

open Transition Checked

section

variable {Psbt J : Type} {W : Serializers Psbt J} {C : Crypto J}

section

open HostTables

variable {t t' : HostTables J} {world : SetupWorld C}

/-- The envelope is its own genesis. -/
def Authenticated.IsOwnGenesis (e : Authenticated C) : Prop :=
  e.inner.getGenesisHash C = C.canonicalizedHash e.inner

/-- Players were stored, as far as they could be, and nothing else has changed but users. -/
structure HostTables.Joined (t t' : HostTables J) (authed : List (Authenticated C)) : Prop where
  consistent : t'.Consistent
  privateKeys : t'.privateKeys = t.privateKeys
  groups : t'.chainCommitGroups = t.chainCommitGroups
  holds : ∀ h, t'.Holds h ↔ t.Holds h ∨
    ∃ e ∈ authed, e.inner.header.height = 0 ∧ h = C.canonicalizedHash e.inner

private theorem insertUsers_iff (world : SetupWorld C) (code : JoinCode)
    (authed : List (Authenticated C))
    (i : ℕ) :
    (execute (world.insertUsers code authed i) t).1 = true ↔
      ∀ k < authed.length, world.fails (.insertUser (i + k)) = false := by
  induction authed generalizing t i with
  | nil => simp [SetupWorld.insertUsers]
  | cons e authed ih =>
    show (execute (_ :: world.insertUsers code authed (i + 1)) t).1 = true ↔ _
    rw [execute_attempt_iff, ih, List.length_cons, Nat.forall_lt_succ_left]
    simp [insertUser, Nat.add_assoc, Nat.add_comm 1]

private theorem insertUsers_joined {code : JoinCode} {authed : List (Authenticated C)} {i : ℕ}
    (ht : t.Consistent) (hown : ∀ e ∈ authed, e.IsOwnGenesis)
    (hdone : execute (world.insertUsers code authed i) t = (true, t')) : t.Joined t' authed := by
  induction authed generalizing t i with
  | nil =>
    obtain rfl : t = t' := congrArg Prod.snd hdone
    exact ⟨ht, rfl, rfl, by simp⟩
  | cons e authed ih =>
    have hworks : world.fails (.insertUser i) = false := by
      simpa using (insertUsers_iff _ _ _ _).mp (congrArg Prod.fst hdone) 0 (by simp)
    have hrest : execute (world.insertUsers code authed (i + 1))
        (t.insertUser (code.toHex ++ "::" ++ toString i) e (world.now (.insertUser i))).2 =
          (true, t') := by
      rw [← hdone]
      symm
      apply execute_cons_of_true
      show world.attempt (.insertUser i) _ t = _
      rw [attempt_of_works hworks]
      rfl
    have hjoined := ih (ht.store (.insertUser (code.toHex ++ "::" ++ toString i) e
      (world.now (.insertUser i)))) (fun e' he' => hown e' (List.mem_cons_of_mem _ he')) hrest
    refine ⟨hjoined.consistent, hjoined.privateKeys, hjoined.groups, ?_⟩
    intro h
    have hstored := (Store.insertUser_spec (s := t.store) (code.toHex ++ "::" ++ toString i)
      (world.now (.insertUser i)) h (hown e List.mem_cons_self)).2
    rw [hjoined.holds h]
    show (h ∈ List.map Row.hash _ ∨ _) ↔ _
    rw [List.exists_mem_cons_iff, ← or_assoc]
    exact or_congr_left hstored

/-- The tables can take the chain of the host: its key, its envelope and the name of its group are
new, its members are stored, none of them twice, and the database does not fail. -/
structure HostTables.Takes (t : HostTables J) (world : SetupWorld C) (e : Authenticated C)
    (args : List CanonicalEnvelopeHash) : Prop where
  key : world.keypair.key ∉ t.privateKeys.map Prod.fst
  secret : world.keypair.secret ∉ t.privateKeys.map Prod.snd
  chain : ¬t.Holds (C.canonicalizedHash e.inner)
  name : world.groupName ∉ t.chainCommitGroups.map Prod.snd
  members : ∀ h ∈ args, t.Holds h ∨ h = C.canonicalizedHash e.inner
  distinct : args.Nodup
  works : world.fails .saveKeypair = false ∧ world.fails .saveNonce = false ∧
    world.fails .insertChain = false ∧ world.fails .newGroup = false ∧
    world.fails .addSubscriber = false
  worksMembers : ∀ k < args.length, world.fails (.addMember k) = false

private theorem saveKeypair_iff {kp : KeyPair C} : (t.saveKeypair kp).1 = true ↔
    kp.key ∉ t.privateKeys.map Prod.fst ∧ kp.secret ∉ t.privateKeys.map Prod.snd := by
  unfold saveKeypair
  split_ifs with hold
  · simp only [false_iff]
    tauto
  · simpa only [true_iff, not_or] using hold

private theorem saveKeypair_eq (t : HostTables J) (kp : KeyPair C) : ∃
    (privateKeys : List (XOnlyPublicKey × ℕ))
    (messageNonces : ℕ → List (XOnlyPublicKey × PrecomittedPublicNonce × ℕ)), ∀ nonce,
    ((t.saveKeypair kp).2.saveNonceForUserByKey kp nonce).2 =
      { t with privateKeys, messageNonces := messageNonces nonce } := by
  unfold saveKeypair saveNonceForUserByKey
  split
  · exact ⟨_, fun nonce => _, fun nonce => rfl⟩
  · exact ⟨_, fun nonce => _, fun nonce => rfl⟩

private theorem newChainCommitGroup_iff {name : String} : (t.newChainCommitGroup name).1 = true ↔
    name ∉ t.chainCommitGroups.map Prod.snd := by
  unfold newChainCommitGroup
  split_ifs with hold
  · simpa using hold
  · simpa using hold

private theorem groupStatements_iff {genesis : CanonicalEnvelopeHash} (world : SetupWorld C)
    (args : List CanonicalEnvelopeHash) (ht : t.Consistent) (hgenesis : t.Holds genesis) {name : String}
    (hname : (t.newChainCommitGroup name).1 = true) :
    (execute (world.attempt .addSubscriber
      (·.addSubscriberToChainCommitGroup t.nextGroup genesis) ::
      world.addMembers t.nextGroup args 0) (t.newChainCommitGroup name).2).1 = true ↔
      world.fails .addSubscriber = false ∧
        (∀ k < args.length, world.fails (.addMember k) = false) ∧ (∀ h ∈ args, t.Holds h) ∧
        args.Nodup := by
  have hgroups : (t.newChainCommitGroup name).2 =
      { t with chainCommitGroups := t.chainCommitGroups ++ [(t.nextGroup, name)] } := by
    unfold newChainCommitGroup
    rw [if_neg (newChainCommitGroup_iff.mp hname)]
  have hgroup : t.nextGroup ∈ (t.chainCommitGroups ++ [(t.nextGroup, name)]).map Prod.fst := by
    simp
  obtain ⟨i, hid⟩ := holds_iff.mp hgenesis
  rw [hgroups, execute_attempt_iff]
  -- nobody subscribes to the new group yet
  have hlink : ({ t with chainCommitGroups := t.chainCommitGroups ++ [(t.nextGroup, name)] } :
      HostTables J).link t.store.groupSubscribers t.nextGroup genesis = some (t.nextGroup, i) := by
    apply link_eq_some_iff.mpr
    refine ⟨i, hid, hgroup, ?_, rfl⟩
    intro hmem
    exact Nat.lt_irrefl _ (ht.subscribers _ hmem)
  have hsubscribed : ({ t with chainCommitGroups := t.chainCommitGroups ++ [(t.nextGroup, name)] } :
      HostTables J).addSubscriberToChainCommitGroup t.nextGroup genesis =
        (true, { t with
          chainCommitGroups := t.chainCommitGroups ++ [(t.nextGroup, name)]
          store := { t.store with groupSubscribers :=
            t.store.groupSubscribers ++ [(t.nextGroup, i)] } }) := by
    rw [addSubscriberToChainCommitGroup, hlink]
  rw [hsubscribed]
  have hmembers := addMembers_new_iff world args
    (t := { t with
      chainCommitGroups := t.chainCommitGroups ++ [(t.nextGroup, name)]
      store := { t.store with groupSubscribers :=
        t.store.groupSubscribers ++ [(t.nextGroup, i)] } })
    (ht.linked.of_messages rfl) hgroup fun m hm => Nat.ne_of_lt (ht.members m hm)
  show _ ∧ true = true ∧ (execute (world.addMembers t.nextGroup args 0) _).1 = true ↔ _
  rw [hmembers]
  simp only [true_and]
  exact Iff.rfl

private theorem chainStatements_iff {e : Authenticated C} {args : List CanonicalEnvelopeHash}
    (ht : t.Consistent) (hown : e.IsOwnGenesis) (h0 : e.inner.header.height = 0) :
    (execute (world.chainStatements e t.nextGroup args) t).1 = true ↔ t.Takes world e args := by
  obtain ⟨privateKeys, messageNonces, hkeys⟩ := saveKeypair_eq t world.keypair
  show (execute (_ :: _ :: _ :: _ :: _ :: world.addMembers t.nextGroup args 0) t).1 = true ↔ _
  rw [execute_attempt_iff, execute_attempt_iff, execute_attempt_iff, execute_attempt_iff, hkeys,
    saveKeypair_iff]
  -- the tables with the key pair, its nonce and the envelope
  let nickname := hexText 64 (C.canonicalizedHash e.inner).digest
  let t₂ : HostTables J := { t with
    privateKeys
    messageNonces := messageNonces world.nextNonce
    store := (t.store.insertUserByGenesisEnvelope nickname e (world.now .insertChain)).2 }
  have ht₂ : t₂.Consistent := by
    have hstore := ht.store (.insertUser nickname e (world.now .insertChain))
    exact ⟨hstore.linked, hstore.groups, hstore.members, hstore.subscribers⟩
  have hstored (h : CanonicalEnvelopeHash) := Store.insertUser_spec (s := t.store)
    nickname (world.now .insertChain) h hown
  have hholds (h : CanonicalEnvelopeHash) : t₂.Holds h ↔
      t.Holds h ∨ h = C.canonicalizedHash e.inner := by
    apply (hstored h).2.trans
    simp only [h0, true_and]
    exact Iff.rfl
  have hchain : (t.store.insertUserByGenesisEnvelope nickname e (world.now .insertChain)).1.toBool =
      true ↔ ¬t.Holds (C.canonicalizedHash e.inner) := by
    apply (hstored (C.canonicalizedHash e.inner)).1.trans
    simp only [h0, true_and]
    exact Iff.rfl
  show _ ∧ _ ∧ _ ∧ true = true ∧ _ ∧
    (t.store.insertUserByGenesisEnvelope nickname e (world.now .insertChain)).1.toBool = true ∧ _ ∧
    (t₂.newChainCommitGroup world.groupName).1 = true ∧
    (execute (world.attempt .addSubscriber
      (·.addSubscriberToChainCommitGroup t₂.nextGroup (e.inner.getGenesisHash C)) ::
      world.addMembers t₂.nextGroup args 0) (t₂.newChainCommitGroup world.groupName).2).1 = true ↔ _
  rw [hchain, newChainCommitGroup_iff]
  have hgenesis : t₂.Holds (e.inner.getGenesisHash C) := by
    rw [hown]
    exact (hholds _).mpr (.inr rfl)
  have hgroup (hname : world.groupName ∉ t₂.chainCommitGroups.map Prod.snd) :=
    groupStatements_iff world args ht₂ hgenesis
      (newChainCommitGroup_iff.mpr hname)
  constructor
  · intro hall
    obtain ⟨hwkey, hkey, hwnonce, _, hwchain, hnew, hwgroup, hname, hrest⟩ := hall
    obtain ⟨hwsub, hwmembers, hmembers, hdistinct⟩ := (hgroup hname).mp hrest
    exact ⟨hkey.1, hkey.2, hnew, hname, fun h hh => (hholds h).mp (hmembers h hh), hdistinct,
      ⟨hwkey, hwnonce, hwchain, hwgroup, hwsub⟩, hwmembers⟩
  · intro htakes
    obtain ⟨hwkey, hwnonce, hwchain, hwgroup, hwsub⟩ := htakes.works
    refine ⟨hwkey, ⟨htakes.key, htakes.secret⟩, hwnonce, rfl, hwchain, htakes.chain, hwgroup,
      htakes.name, ?_⟩
    apply (hgroup htakes.name).mpr
    exact ⟨hwsub, htakes.worksMembers, fun h hh => (hholds h).mpr (htakes.members h hh),
      htakes.distinct⟩

end

private theorem tryAuthenticate_cases (e : Envelope J) :
    (e.Authentic C ∧ ∃ a, e.tryAuthenticate C = .ok a ∧ a.inner = e) ∨
      (¬e.Authentic C ∧ ∃ err, e.tryAuthenticate C = .error err) := by
  unfold Envelope.tryAuthenticate
  split
  · rename_i e' h
    obtain ⟨rfl, hauthentic⟩ := selfAuthenticate_eq_ok_iff.mp h
    exact .inl ⟨hauthentic, _, rfl, rfl⟩
  · rename_i err h
    apply Or.inr
    constructor
    · intro hauthentic
      rw [selfAuthenticate_eq_ok_iff.mpr ⟨rfl, hauthentic⟩] at h
      cases h
    · exact ⟨err, rfl⟩

private theorem authenticateAll_cases (es : List (Envelope J)) :
    ((∀ e ∈ es, e.Authentic C) ∧
      ∃ authed, authenticateAll C es = .ok authed ∧ authed.map Authenticated.inner = es) ∨
    (¬(∀ e ∈ es, e.Authentic C) ∧ ∃ err, authenticateAll C es = .error err) := by
  induction es with
  | nil => exact .inl ⟨by simp, [], rfl, rfl⟩
  | cons e es ih =>
    rw [List.forall_mem_cons, authenticateAll]
    apply (tryAuthenticate_cases (C := C) e).elim
    · intro h
      obtain ⟨he, a, ha, rfl⟩ := h
      rw [ha]
      apply ih.elim
      · intro h
        obtain ⟨hes, authed, hauthed, rfl⟩ := h
        rw [hauthed]
        exact .inl ⟨⟨he, hes⟩, a :: authed, rfl, rfl⟩
      · intro h
        obtain ⟨hes, err, herr⟩ := h
        rw [herr]
        exact .inr ⟨fun hall => hes hall.2, err, rfl⟩
    · intro h
      obtain ⟨he, err, herr⟩ := h
      rw [herr]
      exact .inr ⟨fun hall => he hall.1, err, rfl⟩

namespace SetupWorld

variable (world : SetupWorld C)

private theorem generateNewUser_authentic (init : J) : (world.generateNewUser init).Authentic C :=
  ⟨fun _ => rfl, fun h => absurd h (Int.lt_irrefl 0), _, rfl, world.keypair.verifies _ _⟩

/-- The genesis envelope of the host's chain for a game. -/
def chainOf (W : Serializers Psbt J) (gs : GameSetup) : Envelope J :=
  world.generateNewUser (W.broadcast ⟨.gameSetup gs, "default"⟩)

end SetupWorld

/-- The statements of a setup with a number of players. -/
def SetupStatement.Occurs (players : ℕ) : SetupStatement → Prop
  | .insertUser i => i < players
  | .addMember i => i < players
  | _ => True

/-- An envelope with a hash is stored, or will be once the players are. -/
def HostTables.WillHold (W : Serializers Psbt J) (C : Crypto J) (t : HostTables J)
    (envelopes : List (Envelope (ParticipantAction Psbt))) (h : CanonicalEnvelopeHash) : Prop :=
  t.Holds h ∨ ∃ e ∈ envelopes, e.header.height = 0 ∧ h = C.canonicalizedHash (e.erase W.action)

/-- A setup can succeed: the players are authentic, they are at height 0, no two of them have the
same envelope, what is drawn for the host's chain is new, and the database does not fail. -/
structure CanSetUp (W : Serializers Psbt J) (world : SetupWorld C) (t : HostTables J)
    (envelopes : List (Envelope (ParticipantAction Psbt))) (gs : GameSetup) : Prop where
  authentic : ∀ e ∈ envelopes, (e.erase W.action).Authentic C
  members : ∀ e ∈ envelopes,
    t.WillHold W C envelopes (C.canonicalizedHash (e.erase W.action)) ∨
      C.canonicalizedHash (e.erase W.action) = C.canonicalizedHash (world.chainOf W gs)
  distinct : (envelopes.map fun e => C.canonicalizedHash (e.erase W.action)).Nodup
  key : world.keypair.key ∉ t.privateKeys.map Prod.fst
  secret : world.keypair.secret ∉ t.privateKeys.map Prod.snd
  chain : ¬t.WillHold W C envelopes (C.canonicalizedHash (world.chainOf W gs))
  name : world.groupName ∉ t.chainCommitGroups.map Prod.snd
  works : ∀ s : SetupStatement, s.Occurs envelopes.length → world.fails s = false

variable {world : SetupWorld C} {t t' : HostTables J} {gs : GameSetup}
  {envelopes : List (Envelope (ParticipantAction Psbt))}

private theorem createNewAttestationChain_cases (world : SetupWorld C) (gs : GameSetup)
    (args : List CanonicalEnvelopeHash) (ht : t.Consistent) :
    ∃ e : Authenticated C, e.inner = world.chainOf W gs ∧
      (t.Takes world e args ∧
        (∃ chain t', createNewAttestationChain W world args gs t = (.ok chain, t')) ∨
      ¬t.Takes world e args ∧
        ∃ t', createNewAttestationChain W world args gs t = (.error .chain, t')) := by
  have hauthentic := world.generateNewUser_authentic (W.broadcast ⟨.gameSetup gs, "default"⟩)
  obtain ⟨_, e, he, hinner⟩ := (tryAuthenticate_cases _).resolve_right fun h => h.1 hauthentic
  refine ⟨e, hinner, ?_⟩
  have hown : e.IsOwnGenesis := by
    unfold Authenticated.IsOwnGenesis
    rw [hinner]
    rfl
  have h0 : e.inner.header.height = 0 := by
    rw [hinner]
    rfl
  rw [← chainStatements_iff ht hown h0]
  unfold createNewAttestationChain
  rw [he]
  cases hrun : HostTables.execute (world.chainStatements e t.nextGroup args) t with
  | mk result t' =>
    cases result with
    | true =>
      simp only [hrun]
      exact .inl ⟨trivial, _, t', rfl⟩
    | false =>
      simp only [hrun]
      exact .inr ⟨Bool.false_ne_true, t', rfl⟩

private theorem HostTables.Joined.willHold_iff {authed : List (Authenticated C)}
    (hjoined : t.Joined t' authed)
    (hsame : authed.map Authenticated.inner = envelopes.map (Envelope.erase W.action))
    (h : CanonicalEnvelopeHash) : t'.Holds h ↔ t.WillHold W C envelopes h := by
  rw [hjoined.holds h]
  apply or_congr_right
  have hinner : (∃ e ∈ authed, e.inner.header.height = 0 ∧ h = C.canonicalizedHash e.inner) ↔
      ∃ i ∈ authed.map Authenticated.inner, i.header.height = 0 ∧ h = C.canonicalizedHash i := by
    simp
  rw [hinner, hsame]
  simp [Envelope.erase]

private theorem HostTables.Joined.takes_iff {authed : List (Authenticated C)}
    (hjoined : t.Joined t' authed)
    (hsame : authed.map Authenticated.inner = envelopes.map (Envelope.erase W.action))
    (hworks : ∀ k < authed.length, world.fails (.insertUser k) = false)
    (hauthentic : ∀ e ∈ envelopes, (e.erase W.action).Authentic C)
    {e : Authenticated C} (he : e.inner = world.chainOf W gs) :
    t'.Takes world e (envelopes.map fun e => C.canonicalizedHash (e.erase W.action)) ↔
      CanSetUp W world t envelopes gs := by
  have hlength : authed.length = envelopes.length := by
    simpa using congrArg List.length hsame
  have hholds := hjoined.willHold_iff hsame
  constructor
  · intro htakes
    obtain ⟨hwkey, hwnonce, hwchain, hwgroup, hwsub⟩ := htakes.works
    constructor
    · exact hauthentic
    · intro m hm
      rw [← hholds, ← he]
      exact htakes.members _ (List.mem_map_of_mem hm)
    · exact htakes.distinct
    · exact hjoined.privateKeys ▸ htakes.key
    · exact hjoined.privateKeys ▸ htakes.secret
    · rw [← hholds, ← he]
      exact htakes.chain
    · exact hjoined.groups ▸ htakes.name
    · intro statement hoccurs
      cases statement with
      | insertUser i =>
        apply hworks
        rw [hlength]
        exact hoccurs
      | saveKeypair => exact hwkey
      | saveNonce => exact hwnonce
      | insertChain => exact hwchain
      | newGroup => exact hwgroup
      | addSubscriber => exact hwsub
      | addMember i =>
        apply htakes.worksMembers
        rw [List.length_map]
        exact hoccurs
  · intro hcan
    constructor
    · rw [hjoined.privateKeys]
      exact hcan.key
    · rw [hjoined.privateKeys]
      exact hcan.secret
    · rw [hholds, he]
      exact hcan.chain
    · rw [hjoined.groups]
      exact hcan.name
    · intro h hh
      obtain ⟨m, hm, rfl⟩ := List.mem_map.mp hh
      rw [hholds, he]
      exact hcan.members m hm
    · exact hcan.distinct
    · exact ⟨hcan.works _ trivial, hcan.works _ trivial, hcan.works _ trivial,
        hcan.works _ trivial, hcan.works _ trivial⟩
    · intro k hk
      rw [List.length_map] at hk
      exact hcan.works (.addMember k) hk

/-- A setup whose statements can all succeed goes on to the funding, and any other one ends with an
early error. -/
theorem setUpGame_cases (world : SetupWorld C) (gs : GameSetup) (code : JoinCode) (ht : t.Consistent)
    (hown : ∀ e ∈ envelopes, (e.erase W.action).getGenesisHash C =
      C.canonicalizedHash (e.erase W.action)) :
    (CanSetUp W world t envelopes gs ∧
      ∃ chain t', setUpGame W world code envelopes gs t = (world.fundContract gs chain, t')) ∨
    (¬CanSetUp W world t envelopes gs ∧
      ∃ err t', setUpGame W world code envelopes gs t = (.error err, t') ∧
        err.isEarly = true) := by
  unfold setUpGame
  apply (authenticateAll_cases (C := C) (envelopes.map (Envelope.erase W.action))).elim
  · intro h
    obtain ⟨hauthentic, authed, hauthed, hsame⟩ := h
    rw [List.forall_mem_map] at hauthentic
    have howned : ∀ a ∈ authed, a.IsOwnGenesis := by
      intro a ha
      have hmem : a.inner ∈ envelopes.map (Envelope.erase W.action) :=
        hsame ▸ List.mem_map_of_mem ha
      obtain ⟨e, he, heq⟩ := List.mem_map.mp hmem
      unfold Authenticated.IsOwnGenesis
      rw [← heq]
      exact hown e he
    rw [hauthed]
    cases hrun : HostTables.execute (world.insertUsers code authed 0) t with
    | mk result t₁ =>
      have hworks := insertUsers_iff (t := t) world code authed 0
      rw [hrun] at hworks
      simp only [Nat.zero_add] at hworks
      cases result with
      | false =>
        simp only [hrun]
        apply Or.inr
        constructor
        · intro hcan
          have hlength : authed.length = envelopes.length := by
            simpa using congrArg List.length hsame
          apply Bool.false_ne_true
          apply hworks.mpr
          intro k hk
          exact hcan.works (.insertUser k) (hlength ▸ hk)
        · exact ⟨.databaseError, t₁, rfl, rfl⟩
      | true =>
        simp only [hrun]
        have hjoined := insertUsers_joined ht howned hrun
        obtain ⟨e, he, hcases⟩ := createNewAttestationChain_cases (W := W) world gs
          (envelopes.map fun e => C.canonicalizedHash (e.erase W.action)) hjoined.consistent
        rw [hjoined.takes_iff hsame (hworks.mp rfl) hauthentic he] at hcases
        apply hcases.imp
        · intro h
          obtain ⟨hcan, chain, t', hchain⟩ := h
          rw [hchain]
          exact ⟨hcan, chain, t', rfl⟩
        · intro h
          obtain ⟨hcan, t', hchain⟩ := h
          rw [hchain]
          exact ⟨hcan, .chain, t', rfl, rfl⟩
  · intro h
    obtain ⟨hrefused, err, herr⟩ := h
    rw [herr]
    apply Or.inr
    constructor
    · intro hcan
      apply hrefused
      rw [List.forall_mem_map]
      exact hcan.authentic
    · exact ⟨.unauthorized err, t, rfl, rfl⟩

/-- The lobby still collects players or waits for its setup, with the players that it had. -/
inductive GameStartingState.Remains : GameStartingState Psbt → GameStartingState Psbt → Prop
  | adding {v : List (Envelope (ParticipantAction Psbt))} :
      Remains (.addingPlayers v) (.addingPlayers v)
  | waiting {v : List (Envelope (ParticipantAction Psbt))} :
      Remains (.waitingForSetup v) (.waitingForSetup v)

/-- A lobby that has not been set up. Its players are genesis envelopes. -/
structure GameStartingState.IsOpen (W : Serializers Psbt J) (C : Crypto J)
    (s : GameStartingState Psbt) : Prop where
  remains : s.Remains s
  genesis : ∀ p ∈ s.players, (p.erase W.action).getGenesisHash C =
    C.canonicalizedHash (p.erase W.action)

private theorem GameStartingState.IsOpen.addPlayer {s s' : GameStartingState Psbt}
    (hs : s.IsOpen W C)
    {p : Envelope (ParticipantAction Psbt)} (h : s.addPlayer W C p = .ok s') : s'.IsOpen W C := by
  unfold GameStartingState.addPlayer at h
  split_ifs at h with hgenesis hheartbeat
  have hplayers {v : List (Envelope (ParticipantAction Psbt))}
      (hv : ∀ q ∈ v, (q.erase W.action).getGenesisHash C =
        C.canonicalizedHash (q.erase W.action)) :
      ∀ q ∈ v ++ [p], (q.erase W.action).getGenesisHash C =
        C.canonicalizedHash (q.erase W.action) := by
    intro q hq
    apply (List.mem_append.mp hq).elim (hv q)
    intro hlast
    rw [List.mem_singleton.mp hlast]
    exact not_not.mp hgenesis
  cases s with
  | addingPlayers v =>
    simp only at h
    split_ifs at h with hfull
    · obtain rfl := Except.ok.inj h
      exact ⟨.waiting, hplayers hs.genesis⟩
    · obtain rfl := Except.ok.inj h
      exact ⟨.adding, hplayers hs.genesis⟩
  | waitingForSetup v => cases h
  | setup v game => cases h

namespace NewGameDB

variable {db : NewGameDB Psbt} {code : JoinCode} {v : Metadata Psbt} {args : FinishArgs}

private theorem lobby?_setState {state : GameStartingState Psbt} (hv : db.lobby? code = some v) :
    (db.setState code state).lobby? code = some { v with state } := by
  have hcode : v.code = code := by simpa using List.find?_some hv
  have hpred : ((fun m : Metadata Psbt => decide (m.code = code)) ∘ fun m =>
      if m.code = code then { m with state } else m) = fun m => decide (m.code = code) := by
    funext m
    by_cases h : m.code = code <;> simp [h]
  unfold lobby? at hv
  rw [lobby?, setState, List.find?_map, hpred, hv]
  simp [hcode]

/-- No lobby has been set up by requests that open lobbies and add players. -/
def Gathering (W : Serializers Psbt J) (C : Crypto J) (db : NewGameDB Psbt) : Prop :=
  ∀ m ∈ db.states, m.state.IsOpen W C

private theorem Gathering.evict (h : db.Gathering W C) : db.evict.Gathering W C := by
  unfold NewGameDB.evict
  split
  · exact h
  · split_ifs
    · intro m hm
      exact h m (List.mem_of_mem_filter hm)
    · exact h

private theorem Gathering.addNewGame (h : db.Gathering W C) (duration : ℕ) (code admin : JoinCode) :
    (db.addNewGame duration code admin).Gathering W C := by
  intro m hm
  apply (List.mem_append.mp hm).elim
  · intro hold
    exact h.evict m (List.mem_of_mem_filter hold)
  · intro hnew
    rw [List.mem_singleton.mp hnew]
    exact ⟨.adding, by simp [GameStartingState.players]⟩

private theorem Gathering.setState (h : db.Gathering W C) {state : GameStartingState Psbt}
    (hstate : state.IsOpen W C) : (db.setState code state).Gathering W C := by
  intro m hm
  obtain ⟨m', hm', rfl⟩ := List.mem_map.mp hm
  split_ifs
  · exact hstate
  · exact h m' hm'

private theorem Gathering.lobby (h : db.Gathering W C) (hv : db.lobby? code = some v) :
    v.state.IsOpen W C :=
  h v (List.mem_of_find?_eq_some hv)

private theorem Gathering.serve (h : db.Gathering W C) (request : LobbyRequest Psbt) :
    (db.serve W C request).Gathering W C := by
  cases request with
  | createNewGameInstance minutes code admin =>
    show NewGameDB.Gathering W C (if 300 < minutes then db else _)
    split_ifs
    · exact h
    · exact h.addNewGame _ _ _
  | addPlayer code envelope =>
    show (db.addPlayer W C code envelope).2.Gathering W C
    unfold NewGameDB.addPlayer
    cases hv : db.lobby? code with
    | none => exact h
    | some v =>
      simp only
      cases hadd : v.state.addPlayer W C envelope with
      | ok state => exact h.setState ((h.lobby hv).addPlayer hadd)
      | error e => exact h

private theorem Gathering.serveAll (h : db.Gathering W C) (requests : List (LobbyRequest Psbt)) :
    (db.serveAll W C requests).Gathering W C := by
  induction requests generalizing db with
  | nil => exact h
  | cons request requests ih => exact ih (h.serve request)

private theorem finishSetup_eq (world : SetupWorld C) (t : HostTables J)
    (hv : db.lobby? args.code = some v)
    (hpass : args.passcode = v.admin) (hopen : v.state.IsOpen W C) :
    db.finishSetup W world t args =
      ((setUpGame W world args.code v.state.players
          (GameStartingState.game v.state.players v.duration args) t).1,
        db.setState args.code (.setup v.state.players
          (GameStartingState.game v.state.players v.duration args)),
        (setUpGame W world args.code v.state.players
          (GameStartingState.game v.state.players v.duration args) t).2) := by
  have hremains := hopen.remains
  unfold finishSetup
  rw [hv]
  cases hstate : v.state with
  | addingPlayers players => simp [hpass, hstate, GameStartingState.finalizeSetup,
      GameStartingState.players]
  | waitingForSetup players => simp [hpass, hstate, GameStartingState.finalizeSetup,
      GameStartingState.players]
  | setup players game =>
    rw [hstate] at hremains
    cases hremains

/-- An error before the chain is created, or while it is, leaves the lobby as it was. -/
def KeepsLobby (W : Serializers Psbt J) (world : SetupWorld C) (db : NewGameDB Psbt)
    (t : HostTables J) (args : FinishArgs) : Prop :=
  ∀ err, (db.finishSetup W world t args).1 = .error err → err.isEarly = true →
    ∃ v v', db.lobby? args.code = some v ∧
      (db.finishSetup W world t args).2.1.lobby? args.code = some v' ∧ v.state.Remains v'.state

/-- Some request would set the game up. -/
def CanFinish (W : Serializers Psbt J) (C : Crypto J) (db : NewGameDB Psbt) (t : HostTables J)
    (code : JoinCode) : Prop :=
  ∃ args : FinishArgs, args.code = code ∧ ∃ (world : SetupWorld C) (chain : CreatedNewChain),
    (db.finishSetup W world t args).1 = .ok chain

private theorem keepsLobby_iff (ht : t.Consistent) (hv : db.lobby? args.code = some v)
    (hpass : args.passcode = v.admin) (hopen : v.state.IsOpen W C) :
    db.KeepsLobby W world t args ↔ CanSetUp W world t v.state.players
      (GameStartingState.game v.state.players v.duration args) := by
  unfold KeepsLobby
  rw [finishSetup_eq world t hv hpass hopen]
  apply (setUpGame_cases (W := W) world (GameStartingState.game v.state.players v.duration args)
    args.code ht hopen.genesis).elim
  · intro h
    obtain ⟨hcan, chain, t', hresult⟩ := h
    apply iff_of_true _ hcan
    intro err herr hearly
    -- errors of the funding come late
    rw [hresult] at herr
    unfold SetupWorld.fundContract at herr
    split at herr
    · cases herr
      cases hearly
    · split at herr
      · cases herr
        cases hearly
      · cases herr
  · intro h
    obtain ⟨hcannot, err, t', hresult, hearly⟩ := h
    apply iff_of_false _ hcannot
    intro hkeeps
    obtain ⟨v₁, v', _, hv', hremains⟩ := hkeeps err (congrArg Prod.fst hresult) hearly
    rw [lobby?_setState hv] at hv'
    obtain rfl := Option.some.inj hv'
    generalize v₁.state = before at hremains
    cases hremains

private theorem canFinish_of_canSetUp (ht : t.Consistent) (hv : db.lobby? args.code = some v)
    (hpass : args.passcode = v.admin) (hopen : v.state.IsOpen W C)
    (hplayers : v.state.players ≠ [])
    (hcan : CanSetUp W world t v.state.players
      (GameStartingState.game v.state.players v.duration args)) :
    db.CanFinish W C t args.code := by
  let funded : SetupWorld C := { world with fund := fun _ _ => .ok () }
  have hfunded : CanSetUp W funded t v.state.players
      (GameStartingState.game v.state.players v.duration args) :=
    ⟨hcan.authentic, hcan.members, hcan.distinct, hcan.key, hcan.secret, hcan.chain, hcan.name,
      hcan.works⟩
  obtain ⟨_, chain, t', hresult⟩ := (setUpGame_cases (W := W) funded
    (GameStartingState.game v.state.players v.duration args) args.code ht hopen.genesis).resolve_right fun h => h.1 hfunded
  refine ⟨args, rfl, funded, chain, ?_⟩
  rw [finishSetup_eq funded t hv hpass hopen, hresult]
  have hlength : (GameStartingState.game v.state.players v.duration args).players.length ≠ 0 := by
    simpa [GameStartingState.game] using hplayers
  show funded.fundContract _ chain = .ok chain
  unfold SetupWorld.fundContract
  rw [if_neg hlength]

private theorem not_canFinish_of_empty (ht : t.Consistent) (hv : db.lobby? code = some v)
    (hopen : v.state.IsOpen W C) (hplayers : v.state.players = []) : ¬db.CanFinish W C t code := by
  intro h
  obtain ⟨args, rfl, world, chain, hresult⟩ := h
  by_cases hpass : args.passcode = v.admin
  · rw [finishSetup_eq world t hv hpass hopen] at hresult
    apply (setUpGame_cases (W := W) world (GameStartingState.game v.state.players v.duration args)
      args.code ht hopen.genesis).elim
    · intro h
      obtain ⟨_, chain', t', hfund⟩ := h
      rw [hfund] at hresult
      simp [SetupWorld.fundContract, GameStartingState.game, hplayers] at hresult
    · intro h
      obtain ⟨_, err, t', herr, _⟩ := h
      rw [herr] at hresult
      cases hresult
  · simp [finishSetup, hv, hpass] at hresult

end NewGameDB

/-- A lobby survives the setups that fail, and can be finished when all its players were welcome,
exactly when the setup can succeed and there is a player or one was turned away. -/
theorem lobby_survives_iff (capacity : ℕ) (requests : List (LobbyRequest Psbt)) (args : FinishArgs)
    (world : SetupWorld C) (t : HostTables J) (ht : t.Reachable C) (v : Metadata Psbt)
    (hv : ((NewGameDB.new capacity).serveAll W C requests).lobby? args.code = some v)
    (hpass : args.passcode = v.admin) :
    ((((NewGameDB.new capacity).serveAll W C requests).KeepsLobby W world t args) ∧
      (NewGameDB.Welcomes W C args.code requests (.new capacity) →
        ((NewGameDB.new capacity).serveAll W C requests).CanFinish W C t args.code)) ↔
    CanSetUp W world t v.state.players
      (GameStartingState.game v.state.players v.duration args) ∧
    (v.state.players = [] → ¬NewGameDB.Welcomes W C args.code requests (.new capacity)) := by
  have hgathering : (NewGameDB.new capacity : NewGameDB Psbt).Gathering W C := by
    intro m hm
    cases hm
  have hopen := (hgathering.serveAll requests).lobby hv
  rw [NewGameDB.keepsLobby_iff ht.consistent hv hpass hopen]
  apply and_congr_right
  intro hcan
  by_cases hplayers : v.state.players = []
  · have hnever := NewGameDB.not_canFinish_of_empty (W := W) ht.consistent hv hopen hplayers
    simp [hplayers, hnever]
  · have hfinish := NewGameDB.canFinish_of_canSetUp ht.consistent hv hpass hopen hplayers hcan
    simp [hplayers, hfinish]

end

/-- Heartbeats are identified by their times. -/
def smallSerializers : Serializers Unit ℕ where
  action
    | .moveEnvelope m => m.timeMillis
    | _ => 0
  broadcast _ := 100

def smallKeys : KeyPair smallCrypto where
  key := ⟨9⟩
  getPublic nonce := ⟨⟨nonce⟩⟩
  signWithPrecomittedNonce nonce digest := ⟨nonce, nonce + digest.digest * 9⟩
  nonce_eq _ _ := rfl
  secret := 9
  verifies _ _ := decide_eq_true rfl

/-- Nothing fails, and the contract is funded. -/
def smallWorld : SetupWorld smallCrypto where
  keypair := smallKeys
  nonce := 20
  nextNonce := 21
  sentTimeMs := 0
  groupName := "group"
  now _ := 0
  fails _ := false
  fund _ _ := .ok ()

/-- The signed genesis envelope of a player, a heartbeat at a time. -/
def joining (key time : ℕ) : Envelope (ParticipantAction Unit) where
  header := (smallEnvelope key none 0 30 31 time).header
  msg := .moveEnvelope ⟨.heartbeat, 0, time⟩

def smallFinish : FinishArgs where
  passcode := ⟨2⟩
  code := ⟨1⟩
  startAmount := 100

/-- A lobby that is opened for five minutes, and two players that join it. -/
def joinRequests (first second : Envelope (ParticipantAction Unit)) : List (LobbyRequest Unit) :=
  [.createNewGameInstance 5 ⟨1⟩ ⟨2⟩, .addPlayer ⟨1⟩ first, .addPlayer ⟨1⟩ second]

/-- A player joins twice, which is answered with success, and the setup leaves nothing to repeat. -/
theorem player_joins_twice :
    NewGameDB.Welcomes smallSerializers smallCrypto ⟨1⟩ (joinRequests (joining 5 1) (joining 5 1))
      (.new 1000) ∧
    ¬(((NewGameDB.new 1000).serveAll smallSerializers smallCrypto
        (joinRequests (joining 5 1) (joining 5 1))).KeepsLobby smallSerializers smallWorld .empty
          smallFinish ∧
      (NewGameDB.Welcomes smallSerializers smallCrypto ⟨1⟩
          (joinRequests (joining 5 1) (joining 5 1)) (.new 1000) →
        ((NewGameDB.new 1000).serveAll smallSerializers smallCrypto
          (joinRequests (joining 5 1) (joining 5 1))).CanFinish smallSerializers smallCrypto .empty
            ⟨1⟩)) := by
  constructor
  · refine ⟨?_, ?_, ?_, trivial⟩
    · intro envelope h
      cases h
    · intro envelope h
      cases h
      rfl
    · intro envelope h
      cases h
      rfl
  · intro h
    obtain ⟨v, v', _, hv', hremains⟩ := h.1 .chain rfl rfl
    obtain rfl : _ = v' := Option.some.inj hv'
    generalize v.state = before at hremains
    cases hremains

/-- Two players can be set up and go on to play. -/
theorem two_players_survive :
    ((NewGameDB.new 1000).serveAll smallSerializers smallCrypto
      (joinRequests (joining 5 1) (joining 6 2))).KeepsLobby smallSerializers smallWorld .empty
        smallFinish ∧
    (NewGameDB.Welcomes smallSerializers smallCrypto ⟨1⟩
        (joinRequests (joining 5 1) (joining 6 2)) (.new 1000) →
      ((NewGameDB.new 1000).serveAll smallSerializers smallCrypto
        (joinRequests (joining 5 1) (joining 6 2))).CanFinish smallSerializers smallCrypto .empty
          ⟨1⟩) := by
  apply (lobby_survives_iff 1000 (joinRequests (joining 5 1) (joining 6 2)) smallFinish smallWorld
    .empty .refl ⟨0, .addingPlayers [joining 5 1, joining 6 2], ⟨1⟩, ⟨2⟩, 300⟩ rfl rfl).mpr
  constructor
  · constructor
    · intro e he
      simp only [GameStartingState.players, List.mem_cons, List.not_mem_nil, or_false] at he
      obtain rfl | rfl := he
      · exact (selfAuthenticate_eq_ok_iff.mp (smallEnvelope_genesis 5 30 31 1)).2
      · exact (selfAuthenticate_eq_ok_iff.mp (smallEnvelope_genesis 6 30 31 2)).2
    · intro e he
      simp only [GameStartingState.players, List.mem_cons, List.not_mem_nil, or_false] at he
      obtain rfl | rfl := he
      · exact .inl (.inr ⟨joining 5 1, List.mem_cons_self, rfl, rfl⟩)
      · exact .inl (.inr ⟨joining 6 2, List.mem_cons_of_mem _ List.mem_cons_self, rfl, rfl⟩)
    · decide
    · exact List.not_mem_nil
    · exact List.not_mem_nil
    · intro hheld
      apply hheld.elim List.not_mem_nil
      intro h
      obtain ⟨e, he, _, hhash⟩ := h
      simp only [GameStartingState.players, List.mem_cons, List.not_mem_nil, or_false] at he
      obtain rfl | rfl := he
      · exact absurd hhash (by decide)
      · exact absurd hhash (by decide)
    · exact List.not_mem_nil
    · exact fun _ _ => rfl
  · intro h
    cases h

end JudicaVM
