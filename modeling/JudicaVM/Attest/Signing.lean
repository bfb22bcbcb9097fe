import JudicaVM.Attest.PeerInput

/-!
# Signing

Signing an envelope changes what its hash is of. The cached hash is cleared or computed again
whenever the signature changes, so that it always is the hash of the envelope as it stands.
-/

namespace JudicaVM

open Checked Serde

/-- What signing takes from the curve: key pairs, secret keys and the signature that a call returns
unless it fails. -/
structure Signing where
  KeyPair : Type
  SecretKey : Type
  xOnlyPublicKey : KeyPair → XOnlyPublicKey
  schnorrsigSignCustom : CanonicalEnvelopeHash → KeyPair → SecretKey → Option Signature

/-- Signing succeeds, and the signature is valid for the key of the pair. -/
def Signing.Correct {Psbt : Type} (W : Signing) (L : Libraries Psbt) : Prop :=
  ∀ msg keypair nonce, ∃ sig, W.schnorrsigSignCustom msg keypair nonce = some sig ∧
    L.verifySchnorr sig msg (W.xOnlyPublicKey keypair) = true

structure PrecomittedNonce (W : Signing) where
  secret : W.SecretKey

def PrecomittedNonce.signWithPrecomittedNonce {W : Signing} (nonce : PrecomittedNonce W)
    (msg : CanonicalEnvelopeHash) (keypair : W.KeyPair) : Except Panic Signature :=
  match W.schnorrsigSignCustom msg keypair nonce.secret with
  | some sig => .ok sig
  | none => .error (.message "assertion failed: `(left == right)`")

inductive SigningError
  | hashingError
  deriving DecidableEq, Repr

variable {M Psbt : Type}

def Envelope.withSignature (e : Envelope M) (signature : Option Signature) : Envelope M :=
  { e with header := { e.header with unsigned := ⟨signature⟩ } }

/-- The height of an envelope agrees with whether it has ancestors. -/
structure Header.Ranked (h : Header) : Prop where
  genesis : h.height = 0 → h.ancestors = none
  later : 0 < h.height → h.ancestors.isSome

namespace GenericEnvelope

section

variable (L : Libraries Psbt) (A : AttestEnvelopable M) (W : Signing) (e : GenericEnvelope M)

def clone : GenericEnvelope M :=
  ⟨⟨e.inner.header, e.inner.msg⟩, e.cache⟩

/-- The result of `sign_with`, and the envelope that it leaves. -/
def signWith (keypair : W.KeyPair) (nonce : PrecomittedNonce W) :
    Except Panic (Except SigningError Unit × GenericEnvelope M) := do
  let e : GenericEnvelope M := ⟨e.inner.withSignature none, none⟩
  match ← e.clone.signatureDigest L A with
  | none => pure (.error .hashingError, e)
  | some msg =>
    let sig ← nonce.signWithPrecomittedNonce msg keypair
    let e : GenericEnvelope M := { e with inner := e.inner.withSignature (some sig) }
    let hash ← e.computeHash L A
    pure (.ok (), { e with cache := some hash })

/-- The result of `signature_digest_mut`, and the envelope that it leaves. -/
def signatureDigestMutInPlace : Except Panic (CanonicalEnvelopeHash × GenericEnvelope M) := do
  let sig := e.inner.header.unsigned.signature
  let cache := e.cache
  let e : GenericEnvelope M := ⟨e.inner.withSignature none, none⟩
  let msgHash ← e.canonicalizedHashRef L A
  let e : GenericEnvelope M := { e with cache := cache }
  let e : GenericEnvelope M := { e with inner := e.inner.withSignature sig }
  pure (msgHash, e)

/-- The envelopes that the operations make. -/
inductive Obtained : GenericEnvelope M → Prop
  | new {header : Header} {msg : M} {g : GenericEnvelope M} :
    GenericEnvelope.new L A header msg = .ok g → Obtained g
  | deserialize {j : Json} {g : GenericEnvelope M} :
    GenericEnvelope.decode L A j = .ok (some g) → Obtained g
  | clone {g : GenericEnvelope M} : Obtained g → Obtained g.clone
  | signWith {g g' : GenericEnvelope M} {keypair : W.KeyPair} {nonce : PrecomittedNonce W}
      {r : Except SigningError Unit} :
    Obtained g → g.signWith L A W keypair nonce = .ok (r, g') → Obtained g'
  | signatureDigestMut {g g' : GenericEnvelope M} {digest : CanonicalEnvelopeHash} :
    Obtained g → g.signatureDigestMutInPlace L A = .ok (digest, g') → Obtained g'

end

variable {L : Libraries Psbt} {A : AttestEnvelopable M} {W : Signing} {g g' : GenericEnvelope M}

/-- An envelope that has a canonical form, whose cache is empty or has its hash. -/
structure Fresh (L : Libraries Psbt) (A : AttestEnvelopable M) (g : GenericEnvelope M) : Prop where
  header : g.inner.header.Safe
  msg : (A.serialize g.inner.msg).normalize.isCanonical
  cache : ∀ hash ∈ g.cache, hash = (L.crypto A).canonicalizedHash g.inner

theorem toCanonical_eq_some_iff {e : Envelope M} {c : Json} :
    (e.encode A).toCanonical = some c ↔
      (e.header.Safe ∧ (A.serialize e.msg).normalize.isCanonical) ∧
        c = (e.encode A).normalize := by
  have hnormal : (e.encode A).normalize.isCanonical ↔
      e.header.encode.normalize.isCanonical ∧ (A.serialize e.msg).normalize.isCanonical := by
    simp [Envelope.encode, Json.normalize, Json.normalizeFields, Json.keepLast, Json.sortFields]
  have hheader : e.header.encode.normalize.isCanonical ↔ e.header.Safe := by
    rw [← Header.encode_isCanonical_iff]
    constructor
    · exact Json.isCanonical_of_normalize _ Header.encode_wellKeyed
    · exact Json.isCanonical_normalize _
  rw [← hheader, ← hnormal, Json.toCanonical]
  split_ifs with h <;> simp [h, eq_comm]

private theorem computeHash_eq_ok_iff {hash : CanonicalEnvelopeHash} :
    g.computeHash L A = .ok hash ↔
      (g.inner.header.Safe ∧ (A.serialize g.inner.msg).normalize.isCanonical) ∧
        hash = (L.crypto A).canonicalizedHash g.inner := by
  unfold computeHash
  cases hc : (g.inner.encode A).toCanonical with
  | none =>
    have hnot : ¬(g.inner.header.Safe ∧ (A.serialize g.inner.msg).normalize.isCanonical) := by
      intro h
      rw [toCanonical_eq_some_iff.mpr ⟨h, rfl⟩] at hc
      cases hc
    simp [hnot]
  | some c =>
    obtain ⟨h, rfl⟩ := toCanonical_eq_some_iff.mp hc
    constructor
    · intro hhash
      exact ⟨h, (Except.ok.inj hhash).symm⟩
    · intro hhash
      rw [hhash.2]
      rfl

namespace Fresh

private theorem of_computeHash {e : GenericEnvelope M} {hash : CanonicalEnvelopeHash}
    (h : e.computeHash L A = .ok hash) : Fresh L A ⟨e.inner, some hash⟩ := by
  obtain ⟨⟨hheader, hmsg⟩, rfl⟩ := computeHash_eq_ok_iff.mp h
  refine ⟨hheader, hmsg, ?_⟩
  intro hash hmem
  exact (Option.some.inj hmem).symm

variable (hg : g.Fresh L A)

include hg

private theorem computeHash_eq (cache : Option CanonicalEnvelopeHash) :
    computeHash L A ⟨g.inner, cache⟩ = .ok ((L.crypto A).canonicalizedHash g.inner) :=
  computeHash_eq_ok_iff.mpr ⟨⟨hg.header, hg.msg⟩, rfl⟩

private theorem canonicalizedHashRef_eq :
    g.canonicalizedHashRef L A = .ok ((L.crypto A).canonicalizedHash g.inner) := by
  unfold canonicalizedHashRef
  cases hcache : g.cache with
  | none => exact hg.computeHash_eq g.cache
  | some hash =>
    rw [hg.cache hash hcache]

private theorem withSignature (sig : Option Signature) :
    Fresh L A ⟨g.inner.withSignature sig, none⟩ := by
  constructor
  · exact ⟨hg.header.height, hg.header.sentTimeMs, hg.header.tips, hg.header.checkpoints⟩
  · exact hg.msg
  · intro hash hmem
    cases hmem

private theorem signatureDigest_withSignature :
    signatureDigest L A ⟨g.inner.withSignature none, none⟩ =
      .ok (some (g.inner.signatureDigestMut (L.crypto A))) := by
  have hhash := (hg.withSignature none).canonicalizedHashRef_eq
  show some <$> canonicalizedHashRef L A ⟨g.inner.withSignature none, none⟩ = _
  rw [hhash]
  rfl

private theorem signatureDigestMutInPlace_eq :
    g.signatureDigestMutInPlace L A = .ok (g.inner.signatureDigestMut (L.crypto A), g) := by
  unfold signatureDigestMutInPlace
  show (canonicalizedHashRef L A ⟨g.inner.withSignature none, none⟩ >>= _) = _
  rw [(hg.withSignature none).canonicalizedHashRef_eq]
  rfl

private theorem signWith_eq {keypair : W.KeyPair} {nonce : PrecomittedNonce W} {sig : Signature}
    (hsig : nonce.signWithPrecomittedNonce (g.inner.signatureDigestMut (L.crypto A)) keypair =
      .ok sig) :
    g.signWith L A W keypair nonce =
      .ok (.ok (), ⟨g.inner.withSignature (some sig),
        some ((L.crypto A).canonicalizedHash (g.inner.withSignature (some sig)))⟩) := by
  have hhash := (hg.withSignature (some sig)).computeHash_eq none
  unfold signWith
  show (signatureDigest L A ⟨g.inner.withSignature none, none⟩ >>= _) = _
  rw [hg.signatureDigest_withSignature, ok_bind]
  show (nonce.signWithPrecomittedNonce _ keypair >>= _) = _
  rw [hsig, ok_bind]
  show (computeHash L A ⟨g.inner.withSignature (some sig), none⟩ >>= _) = _
  rw [hhash]
  rfl

private theorem selfAuthenticate_eq (hrank : g.inner.header.Ranked) {sig : Signature}
    (hsig : g.inner.header.unsigned.signature = some sig) :
    g.selfAuthenticate L A = .ok
      (if L.verifySchnorr sig (g.inner.signatureDigestMut (L.crypto A)) g.inner.header.key then
        .ok g
      else .error .validationError) := by
  have hgenesis : ¬(g.inner.header.height = 0 ∧ g.inner.header.ancestors.isSome = true) := by
    intro h
    simp [hrank.genesis h.1] at h
  have hlater : ¬(0 < g.inner.header.height ∧ g.inner.header.ancestors.isNone = true) := by
    intro h
    have hsome := hrank.later h.1
    rw [Option.isNone_iff_eq_none.mp h.2] at hsome
    cases hsome
  unfold selfAuthenticate
  rw [if_neg hgenesis, if_neg hlater, hsig]
  show (signatureDigest L A ⟨g.inner.withSignature none, none⟩ >>= _) = _
  rw [hg.signatureDigest_withSignature, ok_bind]
  show (if _ then _ else _) = _
  split_ifs <;> rfl

end Fresh

private theorem signWith_stages {keypair : W.KeyPair} {nonce : PrecomittedNonce W}
    {r : Except SigningError Unit} (h : g.signWith L A W keypair nonce = .ok (r, g')) :
    ∃ sig hash, computeHash L A ⟨g.inner.withSignature (some sig), none⟩ = .ok hash ∧
      g' = ⟨g.inner.withSignature (some sig), some hash⟩ := by
  have hunsigned : ∀ digest, signatureDigest L A ⟨g.inner.withSignature none, none⟩ = .ok digest →
      ∃ msg, digest = some msg := by
    intro digest hdigest
    change some <$> canonicalizedHashRef L A _ = _ at hdigest
    rw [map_eq_pure_bind, bind_eq_ok_iff] at hdigest
    obtain ⟨msg, _, hmsg⟩ := hdigest
    exact ⟨msg, (Except.ok.inj hmsg).symm⟩
  obtain ⟨digest, hdigest, h⟩ := bind_eq_ok_iff.mp h
  obtain ⟨msg, rfl⟩ := hunsigned digest hdigest
  obtain ⟨sig, _, h⟩ := bind_eq_ok_iff.mp h
  obtain ⟨hash, hhash, h⟩ := bind_eq_ok_iff.mp h
  exact ⟨sig, hash, hhash, (Prod.mk.inj (Except.ok.inj h)).2.symm⟩

private theorem Sound.fresh (hg : g.Sound L A) : g.Fresh L A := by
  refine ⟨hg.header, Json.isCanonical_normalize _ hg.msg, ?_⟩
  intro hash hmem
  rw [hg.cache] at hmem
  exact (Option.some.inj hmem).symm

private theorem Obtained.fresh (hg : g.Obtained L A W) : g.Fresh L A := by
  induction hg with
  | new hnew =>
    obtain ⟨hash, hhash, h⟩ := bind_eq_ok_iff.mp hnew
    obtain rfl := Except.ok.inj h
    exact Fresh.of_computeHash hhash
  | deserialize hdecode => exact (decode_sound hdecode).fresh
  | clone _ ih => exact ih
  | signWith _ hsign ih =>
    obtain ⟨sig, hash, hhash, rfl⟩ := signWith_stages hsign
    exact Fresh.of_computeHash hhash
  | signatureDigestMut _ hdigest ih =>
    rw [ih.signatureDigestMutInPlace_eq] at hdigest
    obtain ⟨_, rfl⟩ := Prod.mk.inj (Except.ok.inj hdigest)
    exact ih

/-- The cached hash is the hash computed again, the digest that is signed is the one that is
verified, and an envelope that its author signs is authentic. -/
structure Coherent (L : Libraries Psbt) (A : AttestEnvelopable M) (W : Signing)
    (g : GenericEnvelope M) : Prop where
  hash : ∃ hash, g.canonicalizedHashRef L A = .ok hash ∧
    computeHash L A ⟨g.inner, none⟩ = .ok hash
  digest : ∀ sig, g.inner.header.unsigned.signature = some sig →
    ∃ digest, g.signatureDigestMutInPlace L A = .ok (digest, g) ∧
      signatureDigest L A ⟨g.inner.redacted, none⟩ = .ok (some digest) ∧
      (g.inner.header.Ranked → g.selfAuthenticate L A =
        .ok (if L.verifySchnorr sig digest g.inner.header.key then .ok g
          else .error .validationError))
  signing : W.Correct L → g.inner.header.Ranked → ∀ keypair nonce,
    W.xOnlyPublicKey keypair = g.inner.header.key →
    ∃ g', g.signWith L A W keypair nonce = .ok (.ok (), g') ∧
      g'.inner.redacted = g.inner.redacted ∧ g'.selfAuthenticate L A = .ok (.ok g')

private theorem Fresh.signed (hg : g.Fresh L A) (hW : W.Correct L) (hrank : g.inner.header.Ranked)
    {keypair : W.KeyPair} (nonce : PrecomittedNonce W)
    (hkey : W.xOnlyPublicKey keypair = g.inner.header.key) :
    ∃ g', g.signWith L A W keypair nonce = .ok (.ok (), g') ∧
      g'.inner.redacted = g.inner.redacted ∧ g'.selfAuthenticate L A = .ok (.ok g') := by
  obtain ⟨sig, hsig, hvalid⟩ :=
    hW (g.inner.signatureDigestMut (L.crypto A)) keypair nonce.secret
  have hmade : nonce.signWithPrecomittedNonce (g.inner.signatureDigestMut (L.crypto A)) keypair =
      .ok sig := by
    rw [PrecomittedNonce.signWithPrecomittedNonce, hsig]
  have hfresh : Fresh L A ⟨g.inner.withSignature (some sig),
      some ((L.crypto A).canonicalizedHash (g.inner.withSignature (some sig)))⟩ :=
    Fresh.of_computeHash ((hg.withSignature (some sig)).computeHash_eq none)
  refine ⟨_, hg.signWith_eq hmade, rfl, ?_⟩
  have hranked : (g.inner.withSignature (some sig)).header.Ranked := ⟨hrank.genesis, hrank.later⟩
  rw [hfresh.selfAuthenticate_eq hranked rfl]
  -- the digest of the signed envelope is that of the envelope before it was signed
  have hverified : L.verifySchnorr sig
      ((g.inner.withSignature (some sig)).signatureDigestMut (L.crypto A))
      (g.inner.withSignature (some sig)).header.key = true := by
    rw [hkey] at hvalid
    exact hvalid
  rw [if_pos hverified]

/-- However an envelope was obtained and signed again, every way of hashing it gives the hash of its
canonical form, and every way of signing it an envelope that authenticates. -/
theorem hash_coherent (hg : g.Obtained L A W) : g.Coherent L A W := by
  have hfresh := hg.fresh
  constructor
  · exact ⟨_, hfresh.canonicalizedHashRef_eq, hfresh.computeHash_eq none⟩
  · intro sig hsig
    refine ⟨_, hfresh.signatureDigestMutInPlace_eq, hfresh.signatureDigest_withSignature, ?_⟩
    intro hrank
    exact hfresh.selfAuthenticate_eq hrank hsig
  · intro hW hrank keypair nonce hkey
    exact hfresh.signed hW hrank nonce hkey

end GenericEnvelope

/-- The scheme whose secret keys are their public keys. -/
def smallSigning : Signing where
  KeyPair := ℕ
  SecretKey := ℕ
  xOnlyPublicKey keypair := ⟨keypair⟩
  schnorrsigSignCustom msg keypair nonce := some ⟨nonce, nonce + msg.digest * keypair⟩

/-- Libraries that verify signatures of that scheme and tell trees apart by their depth. -/
def smallLibraries : Libraries Unit :=
  { depthLibraries with
    verifySchnorr := fun sig digest key => sig.s = sig.r + digest.digest * key.x }

private theorem smallSigning_correct : smallSigning.Correct smallLibraries := by
  intro msg keypair nonce
  exact ⟨_, rfl, decide_eq_true rfl⟩

def smallKeyPair : smallSigning.KeyPair := (5 : ℕ)

def smallNonce (secret : ℕ) : PrecomittedNonce smallSigning := ⟨secret⟩

/-- Making a heartbeat, signing it and computing what is signed. -/
def signHeartbeat : Except Panic (GenericEnvelope Json) := do
  let g ← GenericEnvelope.new smallLibraries wrappedJson (smallEnvelope 5 none 0 10 11 0).header
    (.str "heartbeat")
  let (_, signed) ← g.signWith smallLibraries wrappedJson smallSigning smallKeyPair (smallNonce 10)
  let (_, digested) ← signed.signatureDigestMutInPlace smallLibraries wrappedJson
  pure digested.clone

/-- The envelope is signed again with another nonce. -/
theorem hash_coherent_heartbeat : ∃ g g', signHeartbeat = .ok g ∧
    g.Coherent smallLibraries wrappedJson smallSigning ∧
    g.signWith smallLibraries wrappedJson smallSigning smallKeyPair (smallNonce 12) =
      .ok (.ok (), g') ∧
    g'.selfAuthenticate smallLibraries wrappedJson = .ok (.ok g') := by
  have hreturns : returns signHeartbeat fun g => g.inner.header.key = ⟨5⟩ ∧
      g.inner.header.height = 0 ∧ g.inner.header.ancestors = none := by
    decide +kernel
  obtain ⟨g, h, hg⟩ := returns_iff.mp hreturns
  obtain ⟨hkey, hheight, hancestors⟩ := of_decide_eq_true hg
  have hobtained : g.Obtained smallLibraries wrappedJson smallSigning := by
    obtain ⟨g₀, hnew, h⟩ := bind_eq_ok_iff.mp h
    obtain ⟨⟨r, signed⟩, hsign, h⟩ := bind_eq_ok_iff.mp h
    obtain ⟨⟨digest, digested⟩, hdigest, h⟩ := bind_eq_ok_iff.mp h
    obtain rfl := Except.ok.inj h
    exact (((GenericEnvelope.Obtained.new hnew).signWith hsign).signatureDigestMut hdigest).clone
  have hrank : g.inner.header.Ranked := by
    constructor
    · intro _
      exact hancestors
    · intro hpos
      rw [hheight] at hpos
      exact absurd hpos (Int.lt_irrefl 0)
  have hcoherent := GenericEnvelope.hash_coherent hobtained
  obtain ⟨g', hsign, _, hself⟩ :=
    hcoherent.signing smallSigning_correct hrank smallKeyPair (smallNonce 12) hkey.symm
  exact ⟨g, g', h, hcoherent, hsign, hself⟩

end JudicaVM
