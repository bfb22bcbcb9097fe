import JudicaVM.Attest.Linked
import JudicaVM.Attest.Signing
import JudicaVM.Attest.Writers
import JudicaVM.Lib.Loop
import Mathlib.Data.Nat.Pairing

/-!
# Retried insertions

`retry_insert_authenticated_envelope_atomic` signs an envelope upon the connected tip of a key and
offers it to a transaction that refuses it when the tip has a child. The loop takes a refusal for a
race with another writer and reads the tip again. An envelope without a canonical form has no hash,
and making it panics.
-/

namespace JudicaVM

open Loop Serde

section

variable {M : Type} {C : Crypto M}

/-- The tables that the loop reads and writes. -/
structure NonceStore (M : Type) where
  store : Store M
  messageNonces : List (PrecomittedPublicNonce × ℕ)

/-- The row that `message_tips_by_user.sql` returns: a row of the greatest height, or none if the
key has no connected row. Which one it is among rows of the same height is up to the database. -/
structure TipQuery (M : Type) (key : XOnlyPublicKey) where
  tip : Store M → Option (Row M)
  isTip : ∀ s t, tip s = some t → s.IsTip key t
  found : ∀ s t, s.IsTip key t → (tip s).isSome

/-- What an iteration takes from its surroundings: the tips of other chains, the secret of the next
nonce, the clock and the checkpoints. -/
structure Surroundings where
  tips : List (XOnlyPublicKey × ℤ × CanonicalEnvelopeHash)
  nextNonce : ℕ
  sentTimeMs : ℤ
  checkpoints : BitcoinCheckPoints
  now : ℤ

/-- The integers of the surroundings are those that a canonical form may contain, as the heights of
stored tips and of blocks and the milliseconds of the clock are. -/
structure Surroundings.Safe (c : Surroundings) : Prop where
  sentTimeMs : Json.Safe c.sentTimeMs
  tips : ∀ t ∈ c.tips, Json.Safe t.2.1
  checkpoints : ∀ p ∈ c.checkpoints.checkpoints.toList, Json.Safe p.2

/-- How the loop is left: with an envelope, with an error, or by the panic of `compute_hash`. -/
inductive Leaving
  | inserted
  | failed
  | panicked
  deriving DecidableEq

variable (A : AttestEnvelopable M) (K : KeyPair C) (query : TipQuery M K.key) (msg : M)

/-- The match on the result of the transaction. -/
def leaveOrRetry (messageNonces : List (PrecomittedPublicNonce × ℕ)) :
    Except SqliteFail Unit × Store M → NonceStore M ⊕ (Leaving × NonceStore M)
  | (.ok (), s) => .inr (.inserted, ⟨s, messageNonces⟩)
  | (.error .constraintUnique, s) => .inl ⟨s, messageNonces⟩
  | (.error _, s) => .inr (.failed, ⟨s, messageNonces⟩)

/-- The body of the loop of `retry_insert_authenticated_envelope_atomic`. -/
def retryInsert (c : Surroundings) (w : NonceStore M) : NonceStore M ⊕ (Leaving × NonceStore M) :=
  match query.tip w.store with
  | none => .inr (.failed, w)
  | some tip =>
    match w.messageNonces.find? (·.1 = tip.body.header.nextNonce) with
    | none => .inr (.failed, w)
    | some row =>
      let messageNonces := w.messageNonces ++ [(K.getPublic c.nextNonce, c.nextNonce)]
      let e := K.wrapMessage msg c.tips tip.body (K.getPublic c.nextNonce) c.sentTimeMs
        c.checkpoints
      match (e.encode A).toCanonical with
      | none => .inr (.panicked, ⟨w.store, messageNonces⟩)
      | some _ =>
        match (K.signWith e row.2).authenticate C with
        | none => .inr (.failed, ⟨w.store, messageNonces⟩)
        | some wrapped =>
          leaveOrRetry messageNonces (w.store.tryInsertAuthenticatedEnvelope wrapped true c.now)

/-- A call that succeeds stores one envelope of the key, and any other stores none. -/
def Leaves (s s' : Store M) : Leaving → Prop
  | .inserted => ∃ e : Authenticated C, s'.contents = s.contents ++ [e.entry] ∧
      e.inner.header.key = K.key ∧ e.inner.msg = msg
  | _ => s' = s

/-- However the iterations go, the loop ends, with one new envelope or with an error. -/
def RetryEnds (w : NonceStore M) : Prop :=
  ∀ surroundings : ℕ → Surroundings, (∀ k, (surroundings k).Safe) → ∃ n leaving w',
    rounds (retryInsert A K query msg) surroundings w n = .inr (leaving, w') ∧
      leaving ≠ .panicked ∧ Leaves K msg w.store w'.store leaving

/-- An envelope with the message upon the tip has a canonical form. -/
def Wrappable (tip : Row M) : Prop :=
  Json.Safe (tip.body.header.height + 1) ∧ (A.serialize msg).normalize.isCanonical

instance (tip : Row M) : Decidable (Wrappable A msg tip) :=
  inferInstanceAs (Decidable (_ ∧ _))

variable {A K query msg} {w w' : NonceStore M} {s : Store M} {e : Envelope M} {tip : Row M}
  {c : Surroundings} {wrapped : Authenticated C}

theorem signWith_authentic (nonce : ℕ) (hgenesis : e.header.height = 0 → e.header.ancestors = none)
    (hlater : 0 < e.header.height → e.header.ancestors.isSome) (hkey : e.header.key = K.key) :
    (K.signWith e nonce).Authentic C where
  genesis := hgenesis
  later := hlater
  signed := by
    refine ⟨_, rfl, ?_⟩
    show C.verifySchnorr _ (C.canonicalizedHash e.redacted) e.header.key = true
    rw [hkey]
    exact K.verifies nonce _

theorem exists_authenticate (h : e.Authentic C) :
    ∃ wrapped : Authenticated C, e.authenticate C = some wrapped ∧ wrapped.inner = e := by
  have hok := selfAuthenticate_eq_ok_iff.mpr ⟨rfl, h⟩
  cases hvalid : e.authenticate C with
  | some wrapped => exact ⟨wrapped, rfl, Writers.authenticate_eq hvalid⟩
  | none =>
    unfold Envelope.authenticate at hvalid
    split at hvalid
    · cases hvalid
    · rename_i herror
      rw [hok] at herror
      cases herror

theorem exists_wrapped (hs : s.Linked) (htip : tip ∈ s.messages) (msg : M) (c : Surroundings)
    (nonce : ℕ) : ∃ wrapped : Authenticated C,
      (K.signWith (K.wrapMessage msg c.tips tip.body (K.getPublic c.nextNonce) c.sentTimeMs
        c.checkpoints) nonce).authenticate C = some wrapped ∧
      wrapped.inner = K.signWith (K.wrapMessage msg c.tips tip.body (K.getPublic c.nextNonce)
        c.sentTimeMs c.checkpoints) nonce := by
  have hheight : 0 < tip.body.header.height + 1 := Int.lt_add_one_of_le (hs.height_nonneg htip)
  apply exists_authenticate
  exact signWith_authentic nonce (fun h0 => absurd h0 hheight.ne') (fun _ => rfl) rfl

private theorem wrapMessage_toCanonical_iff (hc : c.Safe) :
    ((K.wrapMessage msg c.tips tip.body (K.getPublic c.nextNonce) c.sentTimeMs
      c.checkpoints).encode A).toCanonical.isSome ↔ Wrappable A msg tip := by
  constructor
  · intro hsome
    obtain ⟨canonical, hcanonical⟩ := Option.isSome_iff_exists.mp hsome
    obtain ⟨⟨hheader, hmsg⟩, -⟩ := GenericEnvelope.toCanonical_eq_some_iff.mp hcanonical
    exact ⟨hheader.height, hmsg⟩
  · intro hwrappable
    have hheader : (K.wrapMessage msg c.tips tip.body (K.getPublic c.nextNonce) c.sentTimeMs
        c.checkpoints).header.Safe :=
      ⟨hwrappable.1, hc.sentTimeMs, hc.tips, hc.checkpoints⟩
    rw [GenericEnvelope.toCanonical_eq_some_iff.mpr ⟨⟨hheader, hwrappable.2⟩, rfl⟩]
    rfl

private theorem retryInsert_of_not_wrappable (hc : c.Safe) (htip : query.tip w.store = some tip)
    (hsecret : (w.messageNonces.find? (·.1 = tip.body.header.nextNonce)).isSome)
    (hwrappable : ¬Wrappable A msg tip) :
    retryInsert A K query msg c w =
      .inr (.panicked, ⟨w.store, w.messageNonces ++ [(K.getPublic c.nextNonce, c.nextNonce)]⟩) := by
  obtain ⟨row, hrow⟩ := Option.isSome_iff_exists.mp hsecret
  have hnone := mt (wrapMessage_toCanonical_iff (K := K) hc).mp hwrappable
  rw [Option.not_isSome_iff_eq_none] at hnone
  unfold retryInsert
  rw [htip]
  dsimp only
  rw [hrow]
  dsimp only
  rw [hnone]

private theorem retryInsert_eq (hc : c.Safe) (hs : w.store.Linked)
    (htip : query.tip w.store = some tip)
    (hsecret : (w.messageNonces.find? (·.1 = tip.body.header.nextNonce)).isSome)
    (hwrappable : Wrappable A msg tip) :
    ∃ wrapped : Authenticated C,
      wrapped.inner.header.ancestors =
        some ⟨C.canonicalizedHash tip.body, tip.body.getGenesisHash C⟩ ∧
      wrapped.inner.header.key = K.key ∧ wrapped.inner.msg = msg ∧
      retryInsert A K query msg c w =
        leaveOrRetry (w.messageNonces ++ [(K.getPublic c.nextNonce, c.nextNonce)])
          (w.store.tryInsertAuthenticatedEnvelope wrapped true c.now) := by
  obtain ⟨row, hrow⟩ := Option.isSome_iff_exists.mp hsecret
  obtain ⟨wrapped, hwrapped, hinner⟩ := exists_wrapped (K := K) hs (query.isTip _ _ htip).1 msg c
    row.2
  obtain ⟨canonical, hcanonical⟩ := Option.isSome_iff_exists.mp
    ((wrapMessage_toCanonical_iff (K := K) hc).mpr hwrappable)
  refine ⟨wrapped, ?_, ?_, ?_, ?_⟩
  · rw [hinner]
    rfl
  · rw [hinner]
    rfl
  · rw [hinner]
    rfl
  · unfold retryInsert
    rw [htip]
    dsimp only
    rw [hrow]
    dsimp only
    rw [hcanonical]
    dsimp only
    rw [hwrapped]

private theorem retryInsert_of_child (hc : c.Safe) (hs : w.store.Linked)
    (hsourced : w.store.Sourced C) (htip : query.tip w.store = some tip)
    (hsecret : (w.messageNonces.find? (·.1 = tip.body.header.nextNonce)).isSome)
    (hwrappable : Wrappable A msg tip) (hchild : w.store.messageExistsChildren tip.hash) :
    retryInsert A K query msg c w =
      .inl ⟨w.store, w.messageNonces ++ [(K.getPublic c.nextNonce, c.nextNonce)]⟩ := by
  obtain ⟨wrapped, hancestors, -, -, heq⟩ := retryInsert_eq hc hs htip hsecret hwrappable
  have hhash := hsourced.hash_eq (query.isTip _ _ htip).1
  have hrefused : w.store.tryInsertAuthenticatedEnvelope wrapped true c.now =
      (.error .constraintUnique, w.store) := by
    rw [Store.tryInsertAuthenticatedEnvelope, hancestors]
    exact if_pos (by rw [← hhash, hchild]; rfl)
  rw [heq, hrefused]
  rfl

private theorem retryInsert_of_childless (hc : c.Safe) (hs : w.store.Linked)
    (hsourced : w.store.Sourced C)
    (hbinds : ∀ e e' : Envelope M, C.canonicalizedHash e = C.canonicalizedHash e' →
      e.prevMsg = e'.prevMsg)
    (htip : query.tip w.store = some tip)
    (hsecret : (w.messageNonces.find? (·.1 = tip.body.header.nextNonce)).isSome)
    (hwrappable : Wrappable A msg tip) (hchild : ¬w.store.messageExistsChildren tip.hash) :
    ∃ leaving w', retryInsert A K query msg c w = .inr (leaving, w') ∧ leaving ≠ .panicked ∧
      Leaves K msg w.store w'.store leaving := by
  obtain ⟨wrapped, hancestors, hkey, hmsg, heq⟩ := retryInsert_eq hc hs htip hsecret hwrappable
  have hhash := hsourced.hash_eq (query.isTip _ _ htip).1
  have hinsert : w.store.tryInsertAuthenticatedEnvelope wrapped true c.now =
      w.store.tryInsertAuthenticatedEnvelopeWithTxn wrapped c.now := by
    rw [Store.tryInsertAuthenticatedEnvelope, hancestors]
    exact if_neg (by rw [← hhash, Bool.true_and]; exact hchild)
  have hnew : w.store.rowByHash (C.canonicalizedHash wrapped.inner) = none := by
    apply Store.rowByHash_eq_none_iff.mpr
    intro r hr hsame
    apply hchild
    have hprev := hbinds wrapped.inner r.body (hsame.symm.trans (hsourced.hash_eq hr))
    have hparent : wrapped.inner.prevMsg = tip.hash := by
      rw [Envelope.prevMsg, hancestors, hhash]
    apply List.any_eq_true.mpr
    exact ⟨r, hr, decide_eq_true (hprev.symm.trans hparent)⟩
  rw [heq, hinsert]
  unfold Store.tryInsertAuthenticatedEnvelopeWithTxn
  cases w.store.userByKey wrapped.inner.header.key with
  | none => exact ⟨.failed, _, rfl, by decide, rfl⟩
  | some user =>
    dsimp only
    split_ifs with hchecks hexists
    · rw [show (w.store.newRow wrapped user.userId c.now).hash =
        C.canonicalizedHash wrapped.inner from rfl, hnew] at hexists
      cases hexists
    · exact ⟨.inserted, _, rfl, by decide, wrapped, Store.contents_push, hkey, hmsg⟩
    · exact ⟨.failed, _, rfl, by decide, rfl⟩

/-- The state of the tasks of a key after an iteration of one of them. -/
def Writers.resume (w : Writers C) (i : ℕ) (msg : M) :
    NonceStore M ⊕ (Leaving × NonceStore M) → Writers C
  | .inl v => { w.setTask i (.getTip msg) with store := v.store, messageNonces := v.messageNonces }
  | .inr left =>
    { w.setTask i .idle with store := left.2.store, messageNonces := left.2.messageNonces }

/-- An iteration takes the four steps of a task when no other writer comes between them. -/
theorem retryInsert_run [DecidableEq M] {w : Writers C} (i : ℕ) (msg : M) (c : Surroundings)
    (hi : w.tasks i = .getTip msg) (hfresh : w.Fresh K.toSigner c.nextNonce)
    (hs : w.store.Linked) (htip : query.tip w.store = some tip)
    (hsecret : (w.messageNonces.find? (·.1 = tip.body.header.nextNonce)).isSome) (hc : c.Safe)
    (hwrappable : Wrappable A msg tip) :
    Writers.run K.toSigner [.getTip i c.tips tip, .getSecret i,
      .sign i c.nextNonce c.sentTimeMs c.checkpoints, .insert i c.now] w =
        some (w.resume i msg (retryInsert A K query msg c ⟨w.store, w.messageNonces⟩)) := by
  obtain ⟨row, hrow⟩ := Option.isSome_iff_exists.mp hsecret
  have htip' := query.isTip _ _ htip
  obtain ⟨wrapped, hwrapped, -⟩ := exists_wrapped (K := K) hs htip'.1 msg c row.2
  obtain ⟨canonical, hcanonical⟩ := Option.isSome_iff_exists.mp
    ((wrapMessage_toCanonical_iff (K := K) hc).mpr hwrappable)
  have hfresh' : K.getPublic c.nextNonce ∉ w.messageNonces.map Prod.fst := hfresh
  simp only [Writers.run, Writers.step, hi, htip', if_true, Option.bind_some, Writers.setTask,
    Writers.saveNonce, Function.update_self, Function.update_idem, hrow, Option.map_some,
    Writers.Fresh, hfresh', not_false_eq_true, hwrapped, hcanonical, Writers.insertStep, retryInsert,
    htip]
  cases w.store.tryInsertAuthenticatedEnvelope wrapped true c.now with
  | mk inserted s' =>
    cases inserted with
    | ok u => rfl
    | error fail => cases fail <;> rfl

private theorem rounds_retryInsert_of_child {surroundings : ℕ → Surroundings}
    (hsafe : ∀ k, (surroundings k).Safe)
    (hs : Store.Reachable C w.store) (htip : query.tip w.store = some tip)
    (hsecret : (w.messageNonces.find? (·.1 = tip.body.header.nextNonce)).isSome)
    (hwrappable : Wrappable A msg tip) (hchild : w.store.messageExistsChildren tip.hash) (n : ℕ) :
    ∃ w', rounds (retryInsert A K query msg) surroundings w n = .inl w' ∧ w'.store = w.store ∧
      (w'.messageNonces.find? (·.1 = tip.body.header.nextNonce)).isSome := by
  have hstep : ∀ k v, v.store = w.store ∧
      (v.messageNonces.find? (·.1 = tip.body.header.nextNonce)).isSome →
      ∃ v', retryInsert A K query msg (surroundings k) v = .inl v' ∧ v'.store = w.store ∧
        (v'.messageNonces.find? (·.1 = tip.body.header.nextNonce)).isSome := by
    intro k v hv
    obtain ⟨hstore, hsaved⟩ := hv
    refine ⟨_, retryInsert_of_child (hsafe k) (hstore ▸ hs.linked)
      (hstore ▸ hs.sourced) (hstore ▸ htip) hsaved hwrappable (hstore ▸ hchild), hstore, ?_⟩
    rw [List.find?_append]
    simp [hsaved]
  exact rounds_of_going_round (I := fun _ (v : NonceStore M) => v.store = w.store ∧
    (v.messageNonces.find? (·.1 = tip.body.header.nextNonce)).isSome) ⟨rfl, hsecret⟩ hstep n

/-- Surroundings without tips of other chains and without checkpoints. -/
def Surroundings.quiet : Surroundings :=
  ⟨[], 0, 0, .default, 0⟩

private theorem Surroundings.quiet_safe : Surroundings.quiet.Safe where
  sentTimeMs := by decide
  tips _ ht := by cases ht
  checkpoints := by decide

/-- The loop ends if and only if no stored envelope names the connected tip as its parent and an
envelope upon the tip has a canonical form. -/
theorem retry_ends_iff (A : AttestEnvelopable M) (K : KeyPair C) (query : TipQuery M K.key)
    (msg : M) (w : NonceStore M)
    (hbinds : ∀ e e' : Envelope M, C.canonicalizedHash e = C.canonicalizedHash e' →
      e.prevMsg = e'.prevMsg)
    (hs : Store.Reachable C w.store) (tip : Row M) (htip : query.tip w.store = some tip)
    (hsecret : (w.messageNonces.find? (·.1 = tip.body.header.nextNonce)).isSome) :
    RetryEnds A K query msg w ↔
      ¬w.store.messageExistsChildren tip.hash ∧ Json.Safe (tip.body.header.height + 1) ∧
        (A.serialize msg).normalize.isCanonical := by
  have hlinked := hs.linked
  have hsourced := hs.sourced
  constructor
  · intro hends
    obtain ⟨n, leaving, w', hend, hleaving, -⟩ := hends (fun _ => .quiet) fun _ =>
      Surroundings.quiet_safe
    have hwrappable : Wrappable A msg tip := by
      by_contra hnot
      have hround : rounds (retryInsert A K query msg) (fun _ => .quiet) w 1 =
          .inr (.panicked, _) :=
        retryInsert_of_not_wrappable Surroundings.quiet_safe htip hsecret hnot
      have hresult := result_unique hend hround
      exact hleaving (congrArg Prod.fst hresult)
    refine ⟨?_, hwrappable⟩
    intro hchild
    obtain ⟨w'', hround, -⟩ := rounds_retryInsert_of_child
      (fun _ => Surroundings.quiet_safe) hs htip hsecret hwrappable hchild n
    rw [hround] at hend
    cases hend
  · intro hcondition surroundings hsafe
    obtain ⟨hchild, hwrappable⟩ := hcondition
    obtain ⟨leaving, w', hround, hleaves⟩ := retryInsert_of_childless (hsafe 0)
      hlinked hsourced hbinds htip hsecret hwrappable hchild
    exact ⟨1, leaving, w', hround, hleaves⟩

end

/-- The hash of an envelope determines its message and its parent. -/
def pairedCrypto : Crypto ℕ where
  canonicalizedHash e := ⟨Nat.pair e.msg e.prevMsg.digest + 1⟩
  verifySchnorr sig digest key := sig.s = sig.r + digest.digest * key.x

private theorem pairedCrypto_binds (e e' : Envelope ℕ)
    (h : pairedCrypto.canonicalizedHash e = pairedCrypto.canonicalizedHash e') :
    e.prevMsg = e'.prevMsg := by
  have hpair : Nat.pair e.msg e.prevMsg.digest = Nat.pair e'.msg e'.prevMsg.digest :=
    Nat.succ.inj (congrArg CanonicalEnvelopeHash.digest h)
  exact congrArg CanonicalEnvelopeHash.mk (Nat.pair_eq_pair.mp hpair).2

/-- Messages are written as the numbers that they are. -/
def numbers : AttestEnvelopable ℕ where
  deserialize := decodeUnsigned 64
  serialize := encodeNat
  canonical := rewrites_decodeUnsigned 64

def pairedKeys : KeyPair pairedCrypto where
  key := ⟨3⟩
  getPublic nonce := ⟨⟨nonce⟩⟩
  signWithPrecomittedNonce nonce digest := ⟨nonce, nonce + digest.digest * 3⟩
  nonce_eq _ _ := rfl
  secret := 3
  verifies _ _ := decide_eq_true rfl

def pairedGenesis : Authenticated pairedCrypto where
  inner := pairedKeys.signWith (smallEnvelope 3 none 0 0 11 0) 10
  accepted := selfAuthenticate_eq_ok_iff.mpr
    ⟨rfl, signWith_authentic 10 (fun _ => rfl) (fun h => absurd h (by decide)) rfl⟩

/-- The envelope of a message upon another envelope. -/
def pairedUpon (parent : Envelope ℕ) (msg nonce nextNonce : ℕ)
    (h : 0 < parent.header.height + 1) : Authenticated pairedCrypto where
  inner := pairedKeys.signWith (pairedKeys.wrapMessage msg [] parent ⟨⟨nextNonce⟩⟩ 0 .default) nonce
  accepted := selfAuthenticate_eq_ok_iff.mpr
    ⟨rfl, signWith_authentic nonce (fun h0 => absurd h0 h.ne') (fun _ => rfl) rfl⟩

def pairedFirst : Authenticated pairedCrypto := pairedUpon pairedGenesis.inner 1 11 12 (by decide)

def pairedSecond : Authenticated pairedCrypto := pairedUpon pairedFirst.inner 2 12 13 (by decide)

/-- Among tips of one height the oldest one is returned. -/
def oldestTip {M : Type} [DecidableEq M] (key : XOnlyPublicKey) : TipQuery M key where
  tip s := s.messages.find? fun r => s.IsTip key r
  isTip s t h := by simpa using List.find?_some h
  found s t h := List.find?_isSome.mpr ⟨t, h.1, decide_eq_true h⟩

/-- Alice's genesis and her first message. -/
def attachedStore : NonceStore ℕ where
  store := ([.insertUser "alice" pairedGenesis 0, .insert pairedFirst false 0] :
    List (StoreOp pairedCrypto)).foldl Store.apply .empty
  messageNonces := [(⟨⟨12⟩⟩, 12)]

/-- Her second message arrived before the first one and is not connected yet. -/
def waitingStore : NonceStore ℕ where
  store := ([.insertUser "alice" pairedGenesis 0, .insert pairedSecond false 0,
    .insert pairedFirst false 0] : List (StoreOp pairedCrypto)).foldl Store.apply .empty
  messageNonces := [(⟨⟨12⟩⟩, 12)]

/-- The row of her first message. -/
def firstRow (messageId : ℕ) : Row ℕ :=
  ⟨messageId, pairedFirst.inner, ⟨4⟩, 1, 0, some 1, some 1, 11, true⟩

theorem retry_ends_attached : RetryEnds numbers pairedKeys (oldestTip _) 7 attachedStore :=
  (retry_ends_iff numbers pairedKeys (oldestTip _) 7 attachedStore pairedCrypto_binds
    (Store.reachable_foldl _) (firstRow 2) (by decide +kernel) (by decide +kernel)).mpr
      (by decide +kernel)

/-- The second message is not connected yet, and the call tries again for ever. -/
theorem retry_never_ends :
    ¬∀ w : NonceStore ℕ, Store.Reachable pairedCrypto w.store →
      (∃ tip, (oldestTip pairedKeys.key).tip w.store = some tip ∧
        (w.messageNonces.find? (·.1 = tip.body.header.nextNonce)).isSome) →
      RetryEnds numbers pairedKeys (oldestTip _) 7 w := by
  intro h
  have hreachable : Store.Reachable pairedCrypto waitingStore.store := Store.reachable_foldl _
  have htip : (oldestTip pairedKeys.key).tip waitingStore.store = some (firstRow 3) := by
    decide +kernel
  have hends := h waitingStore hreachable ⟨firstRow 3, htip, by decide +kernel⟩
  obtain ⟨n, leaving, w', hend, -⟩ := hends (fun _ => .quiet) fun _ => Surroundings.quiet_safe
  have hwrappable : Wrappable numbers 7 (firstRow 3) := by decide +kernel
  have hround := rounds_retryInsert_of_child (K := pairedKeys) (fun _ => Surroundings.quiet_safe)
    hreachable htip (by decide +kernel) hwrappable (by decide +kernel) n
  obtain ⟨w'', hround, -⟩ := hround
  rw [hround] at hend
  cases hend

end JudicaVM
