import JudicaVM.Attest.Nonces
import JudicaVM.Attest.Secp256k1
import JudicaVM.Lib.Schnorr

/-!
# Secret keys from reused nonces

Two signatures of one key that share their nonce but not their challenge reveal the secret key:
`extract_sk` divides the difference of the signatures by that of the challenges, modulo the order
of the curve.
-/

namespace JudicaVM

open Checked Schnorr

section

variable {M : Type} {C : Crypto M}

/-- What the program takes from the libraries of the curve and of big integers: the verification of
BIP-340 and the coefficient of the extended Euclidean algorithm. -/
structure Curve {M : Type} (C : Crypto M) where
  Point : Type
  group : AddCommGroup Point
  generator : Point
  /-- The point with an even y coordinate. -/
  lift : XOnlyPublicKey → Option Point
  /-- The tagged hash of the nonce, the key and the message. -/
  challenge : XOnlyPublicKey → XOnlyPublicKey → CanonicalEnvelopeHash → ℕ
  /-- The coefficient `x` of the first argument. -/
  extendedGcd : ℤ → ℤ → ℤ
  order : ∀ point : Point, field • point = 0
  generator_ne_zero : generator ≠ 0
  lift_ne_zero : ∀ key point, lift key = some point → point ≠ 0
  verified : ∀ sig digest key, C.verifySchnorr sig digest key = true →
    ∃ nonce point, lift ⟨sig.r⟩ = some nonce ∧ lift key = some point ∧ sig.s < field ∧
      Signs generator nonce point (challenge ⟨sig.r⟩ key digest) sig.s
  bezout : ∀ a b, ∃ y, a * extendedGcd a b + b * y = Int.gcd a b

attribute [instance] Curve.group

variable (K : Curve C)

def Curve.xOnlyFromSlice (bytes : ℕ) : Option XOnlyPublicKey :=
  if (K.lift ⟨bytes⟩).isSome then some ⟨bytes⟩ else none

def secretKeyFromSlice (bytes : ℕ) : Option ℕ :=
  if 0 < bytes ∧ bytes < field then some bytes else none

def Envelope.extractUsedNonce (e : Envelope M) : Option PrecomittedPublicNonce :=
  e.header.unsigned.signature.bind fun sig => (K.xOnlyFromSlice sig.r).map .mk

def Envelope.extractSigS (e : Envelope M) : Option ℕ :=
  e.header.unsigned.signature.map Signature.s

def Curve.extractSk (key : XOnlyPublicKey) (m1 m2 : CanonicalEnvelopeHash)
    (nonce : XOnlyPublicKey) (s1 s2 : ℕ) : Except Panic (Option ℕ) :=
  let d1 := K.challenge nonce key m1
  let d2 := K.challenge nonce key m2
  let divisor : ℤ := d1 - d2
  let inv := K.extendedGcd divisor field % field
  let result := inv * ((s1 : ℤ) - s2) % field
  if 0 < result then .ok (secretKeyFromSlice result.toNat)
  else .error (.message "assertion failed: s == Sign::Plus")

def Curve.extractSkFromEnvelopes (e1 e2 : Envelope M) : Except Panic (Option ℕ) :=
  match e1.extractUsedNonce K with
  | none => .ok none
  | some nonce =>
    if e1.header.key ≠ e2.header.key then .ok none
    else match e2.extractUsedNonce K with
      | none => .ok none
      | some nonce2 =>
        if nonce ≠ nonce2 then .ok none
        else match e1.extractSigS, e2.extractSigS with
          | some s1, some s2 =>
            K.extractSk e1.header.key (e1.signatureDigestMut C) (e2.signatureDigestMut C)
              nonce.point s1 s2
          | _, _ => .ok none

/-- The secret key of a public key. -/
def Curve.IsSecretKey (key : XOnlyPublicKey) (sk : ℕ) : Prop :=
  0 < sk ∧ sk < field ∧ K.lift key = some (sk • K.generator)

/-- The challenge of the signature of an authenticated envelope. -/
def Authenticated.challenge (e : Authenticated C) : ℕ :=
  K.challenge ⟨e.signature.r⟩ e.inner.header.key (e.inner.signatureDigestMut C)

variable {K} {e e1 e2 : Authenticated C}

private theorem Authenticated.verified (e : Authenticated C) :
    ∃ nonce point, K.lift ⟨e.signature.r⟩ = some nonce ∧ K.lift e.inner.header.key = some point ∧
      e.signature.s < field ∧ Signs K.generator nonce point (e.challenge K) e.signature.s := by
  obtain ⟨sig, hsig, hvalid⟩ := e.authentic.signed
  rw [e.signature_eq, Option.some_inj] at hsig
  subst hsig
  exact K.verified _ _ _ hvalid

theorem Authenticated.extractUsedNonce_eq (e : Authenticated C) :
    e.inner.extractUsedNonce K = some ⟨⟨e.signature.r⟩⟩ := by
  obtain ⟨nonce, _, hnonce, _⟩ := e.verified (K := K)
  simp [Envelope.extractUsedNonce, e.signature_eq, Curve.xOnlyFromSlice, hnonce]

private theorem Authenticated.extractSigS_eq (e : Authenticated C) :
    e.inner.extractSigS = some e.signature.s := by
  simp [Envelope.extractSigS, e.signature_eq]

theorem extract_of_nonce_ne (hnonce : e1.signature.r ≠ e2.signature.r) :
    K.extractSkFromEnvelopes e1.inner e2.inner = .ok none := by
  unfold Curve.extractSkFromEnvelopes
  rw [e1.extractUsedNonce_eq, e2.extractUsedNonce_eq]
  simp [hnonce]

private theorem extract_eq_extractSk (hkey : e1.inner.header.key = e2.inner.header.key)
    (hnonce : e1.signature.r = e2.signature.r) :
    K.extractSkFromEnvelopes e1.inner e2.inner = K.extractSk e1.inner.header.key
      (e1.inner.signatureDigestMut C) (e2.inner.signatureDigestMut C) ⟨e1.signature.r⟩
      e1.signature.s e2.signature.s := by
  unfold Curve.extractSkFromEnvelopes
  rw [e1.extractUsedNonce_eq, e2.extractUsedNonce_eq, e1.extractSigS_eq, e2.extractSigS_eq]
  simp [hkey, hnonce]

private theorem exists_signs (hkey : e1.inner.header.key = e2.inner.header.key)
    (hnonce : e1.signature.r = e2.signature.r) :
    ∃ nonce point, K.lift e1.inner.header.key = some point ∧
      Signs K.generator nonce point (e1.challenge K) e1.signature.s ∧
      Signs K.generator nonce point (e2.challenge K) e2.signature.s ∧
      e1.signature.s < field ∧ e2.signature.s < field := by
  obtain ⟨R, P, hR, hP, hs, hsigns⟩ := e1.verified (K := K)
  obtain ⟨R', P', hR', hP', hs', hsigns'⟩ := e2.verified (K := K)
  rw [← hnonce, hR, Option.some_inj] at hR'
  rw [← hkey, hP, Option.some_inj] at hP'
  subst hR' hP'
  exact ⟨R, P, hP, hsigns, hsigns', hs, hs'⟩

theorem extract_of_challenge_eq (hkey : e1.inner.header.key = e2.inner.header.key)
    (hnonce : e1.signature.r = e2.signature.r)
    (hchallenge : e1.challenge K % field = e2.challenge K % field) :
    ∃ p, K.extractSkFromEnvelopes e1.inner e2.inner = .error p := by
  obtain ⟨R, P, _, hsigns, hsigns', hs, hs'⟩ := exists_signs (K := K) hkey hnonce
  have hsame := hsigns.unique K.order field_prime K.generator_ne_zero hsigns' hchallenge hs hs'
  rw [extract_eq_extractSk hkey hnonce, Curve.extractSk, hsame]
  simp

private theorem secretKey_of_smul {key : XOnlyPublicKey} {point : K.Point} {result : ℤ}
    (hlift : K.lift key = some point) (hnonneg : 0 ≤ result) (hlt : result < field)
    (hresult : result • K.generator = point) :
    0 < result ∧ secretKeyFromSlice result.toNat = some result.toNat ∧
      K.IsSecretKey key result.toNat := by
  have hne : result ≠ 0 := by
    intro h0
    apply K.lift_ne_zero key point hlift
    rw [← hresult, h0, zero_smul]
  have hpos : 0 < result := lt_of_le_of_ne hnonneg (Ne.symm hne)
  have hpos' : 0 < result.toNat := by omega
  have hlt' : result.toNat < field := by omega
  refine ⟨hpos, if_pos ⟨hpos', hlt'⟩, hpos', hlt', ?_⟩
  rw [hlift, ← natCast_zsmul, Int.toNat_of_nonneg hnonneg, hresult]

theorem extract_of_challenge_ne (hkey : e1.inner.header.key = e2.inner.header.key)
    (hnonce : e1.signature.r = e2.signature.r)
    (hchallenge : e1.challenge K % field ≠ e2.challenge K % field) :
    ∃ sk, K.extractSkFromEnvelopes e1.inner e2.inner = .ok (some sk) ∧
      K.IsSecretKey e1.inner.header.key sk := by
  obtain ⟨R, P, hP, hsigns, hsigns', _⟩ := exists_signs (K := K) hkey hnonce
  have hpos : (0 : ℤ) < field := by exact_mod_cast field_prime.pos
  have hdvd : ¬(field : ℤ) ∣ (e1.challenge K : ℤ) - e2.challenge K := by
    intro hdvd
    apply hchallenge
    have hmod := Int.emod_eq_emod_iff_emod_sub_eq_zero.mpr (Int.emod_eq_zero_of_dvd hdvd)
    exact_mod_cast hmod
  have hchallenge2 : K.challenge ⟨e1.signature.r⟩ e1.inner.header.key
      (e2.inner.signatureDigestMut C) = e2.challenge K := by
    rw [Authenticated.challenge, hnonce, hkey]
  have hinv := inverse_of_bezout field_prime hdvd (K.bezout _ _)
  have hresult := hsigns.extract K.order hsigns' (((Int.mod_modEq _ _).mul_right _).trans hinv)
  have hsecret := secretKey_of_smul hP (Int.emod_nonneg _ hpos.ne') (Int.emod_lt_of_pos _ hpos)
    hresult
  refine ⟨_, ?_, hsecret.2.2⟩
  rw [extract_eq_extractSk hkey hnonce, Curve.extractSk, hchallenge2]
  exact (if_pos hsecret.1).trans (congrArg Except.ok hsecret.2.1)

end

/-- Signatures over the group of residues, whose challenges are the messages. -/
def residueCrypto : Crypto ℕ where
  canonicalizedHash e := ⟨e.msg + 1⟩
  verifySchnorr sig digest key :=
    0 < key.x ∧ key.x < field ∧ 0 < sig.r ∧ sig.r < field ∧ sig.s < field ∧
      sig.s = sig.r + digest.digest * key.x

def residueLift (key : XOnlyPublicKey) : Option (ZMod field) :=
  if 0 < key.x ∧ key.x < field then some key.x else none

private theorem residueLift_ne_zero (key : XOnlyPublicKey) (point : ZMod field)
    (h : residueLift key = some point) : point ≠ 0 := by
  unfold residueLift at h
  split_ifs at h with hx
  obtain rfl := Option.some.inj h
  intro h0
  have hdvd := (ZMod.natCast_eq_zero_iff _ _).mp h0
  exact absurd (Nat.le_of_dvd hx.1 hdvd) (not_le_of_gt hx.2)

private theorem residue_verified (sig : Signature) (digest : CanonicalEnvelopeHash)
    (key : XOnlyPublicKey)
    (h : residueCrypto.verifySchnorr sig digest key = true) :
    ∃ nonce point, residueLift ⟨sig.r⟩ = some nonce ∧ residueLift key = some point ∧
      sig.s < field ∧ Schnorr.Signs (1 : ZMod field) nonce point digest.digest sig.s := by
  obtain ⟨hx, hx', hr, hr', hs, heq⟩ := of_decide_eq_true h
  refine ⟨sig.r, key.x, if_pos ⟨hr, hr'⟩, if_pos ⟨hx, hx'⟩, hs, ?_⟩
  unfold Schnorr.Signs
  rw [heq, nsmul_eq_mul, nsmul_eq_mul, mul_one, Nat.cast_add, Nat.cast_mul]

private theorem residue_generator_ne_zero : (1 : ZMod field) ≠ 0 := by
  have hfact : Fact field.Prime := ⟨field_prime⟩
  exact one_ne_zero

private theorem residue_order (point : ZMod field) : field • point = 0 := by
  rw [nsmul_eq_mul, ZMod.natCast_self, zero_mul]

private theorem gcdA_bezout (a b : ℤ) : ∃ y, a * Int.gcdA a b + b * y = Int.gcd a b :=
  ⟨Int.gcdB a b, (Int.gcd_eq_gcd_ab a b).symm⟩

def residueCurve : Curve residueCrypto where
  Point := ZMod field
  group := inferInstance
  generator := 1
  lift := residueLift
  challenge _ _ digest := digest.digest
  extendedGcd := Int.gcdA
  order := residue_order
  generator_ne_zero := residue_generator_ne_zero
  lift_ne_zero := residueLift_ne_zero
  verified := residue_verified
  bezout := gcdA_bezout

private theorem smallEnvelope_residue (key nonce nextNonce msg : ℕ) (ancestors : Option (ℕ × ℕ))
    (hverify : residueCrypto.verifySchnorr ⟨nonce, nonce + (msg + 1) * key⟩ ⟨msg + 1⟩ ⟨key⟩ = true) :
    (smallEnvelope key ancestors (if ancestors.isSome then 1 else 0) nonce nextNonce
      msg).selfAuthenticate residueCrypto =
      .ok (smallEnvelope key ancestors (if ancestors.isSome then 1 else 0) nonce nextNonce msg) := by
  apply selfAuthenticate_eq_ok_iff.mpr
  refine ⟨rfl, ?_, ?_, _, rfl, hverify⟩
  · cases ancestors with
    | none => exact fun _ => rfl
    | some a => exact fun h => absurd (show (1 : ℤ) = 0 from h) (by decide)
  · cases ancestors with
    | none => exact fun h => absurd (show (0 : ℤ) < 0 from h) (by decide)
    | some a => exact fun _ => rfl

/-- Alice, whose secret key is 5, signs a message at height 0, or upon a genesis. -/
def residueAlice (nonce nextNonce msg : ℕ) (ancestors : Option (ℕ × ℕ))
    (hverify : residueCrypto.verifySchnorr ⟨nonce, nonce + (msg + 1) * 5⟩ ⟨msg + 1⟩ ⟨5⟩ = true) :
    Authenticated residueCrypto :=
  ⟨_, smallEnvelope_residue 5 nonce nextNonce msg ancestors hverify⟩

end JudicaVM
