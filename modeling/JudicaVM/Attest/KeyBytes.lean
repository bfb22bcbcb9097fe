import JudicaVM.Attest.Extraction
import Mathlib.Data.Nat.Digits.Lemmas

/-!
# Secret keys as bytes

The numbers in a signature are arrays of 32 bytes. The secret key that two of them reveal is written
in the order from the least significant byte on, filled up to 32 bytes and reversed.
-/

namespace JudicaVM

open Checked

section

variable {M : Type} {C : Crypto M}

inductive Sign
  | minus
  | noSign
  | plus
  deriving DecidableEq

/-- The bytes of zero are one zero byte. -/
def toBytesLe (z : ℤ) : Sign × List ℕ :=
  (if z < 0 then .minus else if z = 0 then .noSign else .plus,
    if z = 0 then [0] else Nat.digits 256 z.natAbs)

/-- The 32 bytes of a number, from the most significant one on. -/
def bytesBe (n : ℕ) : List ℕ :=
  ((Nat.digits 256 n).rightpad 32 0).reverse

def secretKeyFromBytes (bytes : List ℕ) : Option ℕ :=
  if bytes.length = 32 then secretKeyFromSlice (bigIntFromBytesBe bytes) else none

def Envelope.sigSBytes (e : Envelope M) : Option (List ℕ) :=
  e.header.unsigned.signature.map fun sig => bytesBe sig.s

variable (K : Curve C)

def Curve.extractSkBytes (key : XOnlyPublicKey) (m1 m2 : CanonicalEnvelopeHash)
    (nonce : XOnlyPublicKey) (s1 s2 : List ℕ) : Except Panic (Option ℕ) :=
  let d1 := K.challenge nonce key m1
  let d2 := K.challenge nonce key m2
  let s1 : ℤ := bigIntFromBytesBe s1
  let s2 : ℤ := bigIntFromBytesBe s2
  let divisor : ℤ := d1 - d2
  let inv := K.extendedGcd divisor field % field
  let result := inv * (s1 - s2) % field
  let bytes := toBytesLe result
  if bytes.1 = .plus then .ok (secretKeyFromBytes (bytes.2.rightpad 32 0).reverse)
  else .error (.message "assertion failed: s == Sign::Plus")

def Curve.extractSkFromEnvelopesBytes (e1 e2 : Envelope M) : Except Panic (Option ℕ) :=
  match e1.extractUsedNonce K with
  | none => .ok none
  | some nonce =>
    if e1.header.key ≠ e2.header.key then .ok none
    else match e2.extractUsedNonce K with
      | none => .ok none
      | some nonce2 =>
        if nonce ≠ nonce2 then .ok none
        else match e1.sigSBytes, e2.sigSBytes with
          | some s1, some s2 =>
            K.extractSkBytes e1.header.key (e1.signatureDigestMut C) (e2.signatureDigestMut C)
              nonce.point s1 s2
          | _, _ => .ok none

private theorem bigIntFromBytesBe_reverse (bytes : List ℕ) :
    bigIntFromBytesBe bytes.reverse = Nat.ofDigits 256 bytes := by
  induction bytes with
  | nil => rfl
  | cons byte bytes ih =>
    rw [List.reverse_cons, bigIntFromBytesBe, List.foldl_append, ← bigIntFromBytesBe, ih,
      Nat.ofDigits_cons]
    exact Nat.add_comm _ _

private theorem bigIntFromBytesBe_rightpad (bytes : List ℕ) :
    bigIntFromBytesBe (bytes.rightpad 32 0).reverse = Nat.ofDigits 256 bytes := by
  rw [bigIntFromBytesBe_reverse, List.rightpad, Nat.ofDigits_append_replicate_zero]

private theorem bigIntFromBytesBe_bytesBe (n : ℕ) : bigIntFromBytesBe (bytesBe n) = n := by
  rw [bytesBe, bigIntFromBytesBe_rightpad, Nat.ofDigits_digits]

private theorem field_lt : field < 256 ^ 32 := by decide +kernel

/-- A number below the order of the curve is read back from its bytes, however many lead with
zeros. -/
theorem secretKeyFromBytes_digits {n : ℕ} (h : n < field) :
    secretKeyFromBytes ((Nat.digits 256 n).rightpad 32 0).reverse = secretKeyFromSlice n := by
  have hlength : (Nat.digits 256 n).length ≤ 32 :=
    (Nat.digits_length_le_iff (by decide) n).mpr (h.trans field_lt)
  have hpadded : ((Nat.digits 256 n).rightpad 32 0).reverse.length = 32 := by
    rw [List.length_reverse, List.length_rightpad, max_eq_left hlength]
  rw [secretKeyFromBytes, if_pos hpadded, bigIntFromBytesBe_rightpad, Nat.ofDigits_digits]

variable {K} {e1 e2 : Authenticated C}

private theorem extractSkBytes_eq (key : XOnlyPublicKey) (m1 m2 : CanonicalEnvelopeHash)
    (nonce : XOnlyPublicKey) (s1 s2 : ℕ) :
    K.extractSkBytes key m1 m2 nonce (bytesBe s1) (bytesBe s2) =
      K.extractSk key m1 m2 nonce s1 s2 := by
  unfold Curve.extractSkBytes Curve.extractSk
  rw [bigIntFromBytesBe_bytesBe, bigIntFromBytesBe_bytesBe]
  dsimp only
  generalize hresult : K.extendedGcd _ _ % (field : ℤ) * _ % (field : ℤ) = result
  have hfield : (0 : ℤ) < field := by exact_mod_cast field_prime.pos
  have hnonneg : 0 ≤ result := hresult ▸ Int.emod_nonneg _ hfield.ne'
  have hlt : result < field := hresult ▸ Int.emod_lt_of_pos _ hfield
  by_cases hpos : 0 < result
  · have hbytes : toBytesLe result = (.plus, Nat.digits 256 result.toNat) := by
      have habs : result.natAbs = result.toNat := by omega
      rw [toBytesLe, if_neg (by omega), if_neg (by omega), if_neg (by omega), habs]
    rw [hbytes, if_pos rfl, if_pos hpos, secretKeyFromBytes_digits (by omega)]
  · have hzero : result = 0 := by omega
    rw [hzero]
    rfl

private theorem extractSkFromEnvelopesBytes_eq (e1 e2 : Envelope M) :
    K.extractSkFromEnvelopesBytes e1 e2 = K.extractSkFromEnvelopes e1 e2 := by
  unfold Curve.extractSkFromEnvelopesBytes Curve.extractSkFromEnvelopes Envelope.sigSBytes
    Envelope.extractSigS
  cases e1.extractUsedNonce K with
  | none => rfl
  | some nonce =>
    cases e2.extractUsedNonce K with
    | none => rfl
    | some nonce2 =>
      cases e1.header.unsigned.signature with
      | none => rfl
      | some sig =>
        cases e2.header.unsigned.signature with
        | none => rfl
        | some sig2 =>
          show (if e1.header.key ≠ e2.header.key then .ok none
            else if nonce ≠ nonce2 then .ok none
              else K.extractSkBytes _ _ _ _ (bytesBe sig.s) (bytesBe sig2.s)) = _
          rw [extractSkBytes_eq]
          rfl

/-- Two envelopes reveal the secret key of the first one. -/
def Curve.Reveals (K : Curve C) (e1 e2 : Authenticated C) : Prop :=
  ∃ sk, K.extractSkFromEnvelopesBytes e1.inner e2.inner = .ok (some sk) ∧
    K.IsSecretKey e1.inner.header.key sk

private theorem reveals_of_challenge_ne (hkey : e1.inner.header.key = e2.inner.header.key)
    (hnonce : e1.signature.r = e2.signature.r)
    (hchallenge : e1.challenge K % field ≠ e2.challenge K % field) : K.Reveals e1 e2 := by
  obtain ⟨sk, hextract, hsk⟩ := extract_of_challenge_ne hkey hnonce hchallenge
  exact ⟨sk, (extractSkFromEnvelopesBytes_eq _ _).trans hextract, hsk⟩

private theorem extract_of_key_ne (hkey : e1.inner.header.key ≠ e2.inner.header.key) :
    K.extractSkFromEnvelopes e1.inner e2.inner = .ok none := by
  unfold Curve.extractSkFromEnvelopes
  rw [e1.extractUsedNonce_eq]
  exact if_pos hkey

private theorem hides_of_ne (hne : e1.inner.header.key ≠ e2.inner.header.key ∨
    e1.signature.r ≠ e2.signature.r) :
    K.extractSkFromEnvelopesBytes e1.inner e2.inner = .ok none := by
  rw [extractSkFromEnvelopesBytes_eq]
  cases hne with
  | inl hkey => exact extract_of_key_ne hkey
  | inr hnonce => exact extract_of_nonce_ne hnonce

/-- Signatures of one key with one nonce reveal the secret key in either order when their challenges
differ, and signatures with different keys or nonces reveal nothing. -/
theorem key_extraction (K : Curve C) (e1 e2 : Authenticated C) :
    (e1.inner.header.key = e2.inner.header.key → e1.signature.r = e2.signature.r →
      e1.challenge K % field ≠ e2.challenge K % field → K.Reveals e1 e2 ∧ K.Reveals e2 e1) ∧
    (e1.inner.header.key ≠ e2.inner.header.key ∨ e1.signature.r ≠ e2.signature.r →
      K.extractSkFromEnvelopesBytes e1.inner e2.inner = .ok none ∧
      K.extractSkFromEnvelopesBytes e2.inner e1.inner = .ok none) := by
  constructor
  · intro hkey hnonce hchallenge
    exact ⟨reveals_of_challenge_ne hkey hnonce hchallenge,
      reveals_of_challenge_ne hkey.symm hnonce.symm hchallenge.symm⟩
  · intro hne
    exact ⟨hides_of_ne hne, hides_of_ne (hne.imp Ne.symm Ne.symm)⟩

end

/-- Two messages of Alice with one nonce, and a third one with another nonce. -/
theorem key_extraction_alice :
    (residueCurve.Reveals (residueAlice 40 11 1 none (by decide +kernel))
        (residueAlice 40 12 2 (some (0, 0)) (by decide +kernel)) ∧
      residueCurve.Reveals (residueAlice 40 12 2 (some (0, 0)) (by decide +kernel))
        (residueAlice 40 11 1 none (by decide +kernel))) ∧
    residueCurve.extractSkFromEnvelopesBytes (residueAlice 40 11 1 none (by decide +kernel)).inner
      (residueAlice 50 13 3 (some (0, 0)) (by decide +kernel)).inner = .ok none :=
  ⟨(key_extraction residueCurve _ _).1 (by decide +kernel) (by decide +kernel)
    (by decide +kernel), ((key_extraction residueCurve _ _).2 (.inr (by decide +kernel))).1⟩

end JudicaVM
