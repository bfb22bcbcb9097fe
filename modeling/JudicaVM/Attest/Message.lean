import Mathlib.Data.Int.Notation
import Mathlib.Tactic.Common
import JudicaVM.Lib.Checked

/-!
# Envelopes

A message travels in an envelope whose header names its author, its place in the author's chain and
the nonce that the author commits to for the next signature.
-/

namespace JudicaVM

/-- A public key of the curve, by its x coordinate. -/
structure XOnlyPublicKey where
  x : ℕ
  deriving DecidableEq, Repr

structure BlockHash where
  digest : ℕ
  deriving DecidableEq, Repr

/-- A Schnorr signature: the first 32 bytes are the x coordinate of the nonce point. -/
structure Signature where
  r : ℕ
  s : ℕ
  deriving DecidableEq, Repr

/-- The hash of an envelope in canonical form, signature included. -/
structure CanonicalEnvelopeHash where
  digest : ℕ
  deriving DecidableEq, Repr

/-- The hash of 32 zero bytes, which stands for the absent parent of a genesis envelope. -/
def CanonicalEnvelopeHash.genesis : CanonicalEnvelopeHash := ⟨0⟩

structure PrecomittedPublicNonce where
  point : XOnlyPublicKey
  deriving DecidableEq, Repr

structure Unsigned where
  signature : Option Signature
  deriving DecidableEq, Repr

structure Ancestors where
  prevMsg : CanonicalEnvelopeHash
  genesis : CanonicalEnvelopeHash
  deriving DecidableEq, Repr

structure BitcoinCheckPoints where
  checkpoints : Vector (BlockHash × ℤ) 5
  deriving DecidableEq

/-- Five unknown blocks. -/
def BitcoinCheckPoints.default : BitcoinCheckPoints :=
  ⟨Vector.replicate 5 (⟨0⟩, -1)⟩

structure Header where
  key : XOnlyPublicKey
  nextNonce : PrecomittedPublicNonce
  ancestors : Option Ancestors
  tips : List (XOnlyPublicKey × ℤ × CanonicalEnvelopeHash)
  height : ℤ
  sentTimeMs : ℤ
  unsigned : Unsigned
  checkpoints : BitcoinCheckPoints
  deriving DecidableEq

/-- `GenericEnvelope<M>`. Its cached hash is the one that `canonicalizedHash` computes. -/
structure Envelope (M : Type) where
  header : Header
  msg : M
  deriving DecidableEq

/-- What the program takes from cryptographic libraries. -/
structure Crypto (M : Type) where
  canonicalizedHash : Envelope M → CanonicalEnvelopeHash
  verifySchnorr : Signature → CanonicalEnvelopeHash → XOnlyPublicKey → Bool

namespace Envelope

variable {M : Type} (C : Crypto M) (e : Envelope M)

/-- The parent that an envelope names. -/
def prevMsg : CanonicalEnvelopeHash :=
  match e.header.ancestors with
  | some a => a.prevMsg
  | none => .genesis

def getGenesisHash : CanonicalEnvelopeHash :=
  match e.header.ancestors with
  | some a => a.genesis
  | none => C.canonicalizedHash e

/-- The envelope without its signature. -/
def redacted : Envelope M :=
  { e with header := { e.header with unsigned := ⟨none⟩ } }

/-- The message that a signature signs. -/
def signatureDigestMut : CanonicalEnvelopeHash :=
  C.canonicalizedHash e.redacted

end Envelope

inductive AuthenticationError
  | noSignature
  | validationError
  | hashingError
  | missingAncestors
  | noAncestorsForGenesis
  deriving DecidableEq, Repr

section

variable {M : Type} (C : Crypto M)

/-- Checks the signature, that a genesis envelope has no ancestors and that a later one has. -/
def Envelope.selfAuthenticate (e : Envelope M) : Except AuthenticationError (Envelope M) :=
  if e.header.height = 0 ∧ e.header.ancestors.isSome then .error .noAncestorsForGenesis
  else if 0 < e.header.height ∧ e.header.ancestors.isNone then .error .missingAncestors
  else match e.header.unsigned.signature with
    | none => .error .noSignature
    | some sig =>
      if C.verifySchnorr sig (e.signatureDigestMut C) e.header.key then .ok e
      else .error .validationError

/-- An envelope that `self_authenticate` has accepted. -/
structure Authenticated where
  inner : Envelope M
  accepted : inner.selfAuthenticate C = .ok inner

/-- What the checks of `self_authenticate` establish. -/
structure Envelope.Authentic (e : Envelope M) : Prop where
  genesis : e.header.height = 0 → e.header.ancestors = none
  later : 0 < e.header.height → e.header.ancestors.isSome
  signed : ∃ sig, e.header.unsigned.signature = some sig ∧
    C.verifySchnorr sig (e.signatureDigestMut C) e.header.key = true

theorem selfAuthenticate_eq_ok_iff {C : Crypto M} {e e' : Envelope M} :
    e.selfAuthenticate C = .ok e' ↔ e' = e ∧ e.Authentic C := by
  constructor
  · intro h
    unfold Envelope.selfAuthenticate at h
    split_ifs at h with hgenesis hlater
    cases hsig : e.header.unsigned.signature with
    | none => simp [hsig] at h
    | some sig =>
      simp only [hsig] at h
      split_ifs at h with hvalid
      constructor
      · exact (Except.ok.inj h).symm
      · constructor
        · intro h0
          simpa [h0] using hgenesis
        · intro hpos
          simpa [hpos, Option.isSome_iff_ne_none] using hlater
        · exact ⟨sig, hsig, hvalid⟩
  · intro h
    obtain ⟨rfl, hauthentic⟩ := h
    obtain ⟨sig, hsig, hvalid⟩ := hauthentic.signed
    have hgenesis : ¬(e'.header.height = 0 ∧ e'.header.ancestors.isSome = true) := by
      intro h
      simp [hauthentic.genesis h.1] at h
    have hlater : ¬(0 < e'.header.height ∧ e'.header.ancestors.isNone = true) := by
      intro h
      have hsome := hauthentic.later h.1
      rw [Option.isNone_iff_eq_none.mp h.2] at hsome
      cases hsome
    rw [Envelope.selfAuthenticate, if_neg hgenesis, if_neg hlater, hsig]
    exact if_pos hvalid

end

namespace Authenticated

variable {M : Type} {C : Crypto M} (e : Authenticated C)

theorem authentic : e.inner.Authentic C :=
  (selfAuthenticate_eq_ok_iff.mp e.accepted).2

private theorem isSome_signature : e.inner.header.unsigned.signature.isSome := by
  obtain ⟨sig, hsig, _⟩ := e.authentic.signed
  simp [hsig]

/-- The signature, which an authenticated envelope must have. -/
def signature : Signature :=
  e.inner.header.unsigned.signature.get e.isSome_signature

theorem signature_eq : e.inner.header.unsigned.signature = some e.signature :=
  (Option.some_get _).symm

end Authenticated

/-- Messages are numbers that identify their envelopes, and a secret key is its public key. -/
def smallCrypto : Crypto ℕ where
  canonicalizedHash e := ⟨e.msg + 1⟩
  verifySchnorr sig digest key := sig.s = sig.r + digest.digest * key.x

/-- The envelope of a message, signed with a nonce. -/
def smallEnvelope (key : ℕ) (ancestors : Option (ℕ × ℕ)) (height : ℤ) (nonce nextNonce msg : ℕ) :
    Envelope ℕ where
  header :=
    { key := ⟨key⟩
      nextNonce := ⟨⟨nextNonce⟩⟩
      ancestors := ancestors.map fun a => ⟨⟨a.1 + 1⟩, ⟨a.2 + 1⟩⟩
      tips := []
      height
      sentTimeMs := 0
      unsigned := ⟨some ⟨nonce, nonce + (msg + 1) * key⟩⟩
      checkpoints := .default }
  msg

theorem smallEnvelope_genesis (key nonce nextNonce msg : ℕ) :
    (smallEnvelope key none 0 nonce nextNonce msg).selfAuthenticate smallCrypto =
      .ok (smallEnvelope key none 0 nonce nextNonce msg) := by
  apply selfAuthenticate_eq_ok_iff.mpr
  refine ⟨rfl, fun _ => rfl, fun h => absurd h (Int.lt_irrefl 0), _, rfl, ?_⟩
  exact decide_eq_true rfl

private theorem smallEnvelope_later (key : ℕ) (ancestors : ℕ × ℕ) (height nonce nextNonce msg : ℕ) :
    (smallEnvelope key (some ancestors) (height + 1) nonce nextNonce msg).selfAuthenticate
      smallCrypto = .ok (smallEnvelope key (some ancestors) (height + 1) nonce nextNonce msg) := by
  apply selfAuthenticate_eq_ok_iff.mpr
  refine ⟨rfl, fun h => ?_, fun _ => rfl, _, rfl, ?_⟩
  · have hpos : (height : ℤ) + 1 = 0 := h
    omega
  · exact decide_eq_true rfl

/-- The genesis envelope of a key. -/
def smallGenesis (key nonce nextNonce msg : ℕ) : Authenticated smallCrypto :=
  ⟨_, smallEnvelope_genesis key nonce nextNonce msg⟩

/-- An envelope above height 0 that names the messages of its parent and of its genesis. -/
def smallLater (key : ℕ) (ancestors : ℕ × ℕ) (height nonce nextNonce msg : ℕ) :
    Authenticated smallCrypto :=
  ⟨_, smallEnvelope_later key ancestors height nonce nextNonce msg⟩

end JudicaVM
