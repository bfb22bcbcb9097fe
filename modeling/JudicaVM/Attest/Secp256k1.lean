import JudicaVM.Lib.PrimeCertificate
import Mathlib.Tactic.NormNum.Prime

/-!
# The order of the curve

The order of secp256k1, which `extract_sk` writes as bytes, is prime.
-/

namespace JudicaVM

open PrimeCertificate

def bigIntFromBytesBe (bytes : List ℕ) : ℕ :=
  bytes.foldl (fun acc byte => 256 * acc + byte) 0

def field : ℕ :=
  bigIntFromBytesBe
    [255, 255, 255, 255, 255, 255, 255, 255, 255, 255, 255, 255, 255, 255, 255, 254, 186,
      174, 220, 230, 175, 72, 160, 59, 191, 210, 94, 140, 208, 54, 65, 65]

private theorem prime_107361793816595537 : (107361793816595537 : ℕ).Prime := by
  have h : Certifies 107361793816595537 57 3 [2, 2, 2, 2, 16699, 85831, 4681609] := by
    decide +kernel
  apply h.prime
  norm_num

private theorem prime_174723607534414371449 : (174723607534414371449 : ℕ).Prime := by
  have h : Certifies 174723607534414371449 68 3 [2, 2, 2, 17, 59, 4051, 120233, 44706919] := by
    decide +kernel
  apply h.prime
  norm_num

private theorem prime_297159362677 : (297159362677 : ℕ).Prime := by
  have h : Certifies 297159362677 39 2 [2, 2, 3, 3, 11, 461, 1627771] := by
    decide +kernel
  apply h.prime
  norm_num

private theorem prime_545358713 : (545358713 : ℕ).Prime := by
  have h : Certifies 545358713 30 5 [2, 2, 2, 41, 59, 28181] := by
    decide +kernel
  apply h.prime
  norm_num

private theorem prime_29047611873442575647497758179 :
    (29047611873442575647497758179 : ℕ).Prime := by
  have h : Certifies 29047611873442575647497758179 95 2
      [2, 293, 305873, 545358713, 297159362677] := by
    decide +kernel
  apply h.prime
  have hsmall : ∀ q ∈ [2, 293, 305873], q.Prime := by norm_num
  simpa [prime_545358713, prime_297159362677] using hsmall

private theorem prime_341948486974166000522343609283189 :
    (341948486974166000522343609283189 : ℕ).Prime := by
  have h : Certifies 341948486974166000522343609283189 109 2
      [2, 2, 3, 3, 3, 109, 29047611873442575647497758179] := by
    decide +kernel
  apply h.prime
  have hsmall : ∀ q ∈ [2, 3, 109], q.Prime := by norm_num
  simpa [prime_29047611873442575647497758179] using hsmall

theorem field_prime : field.Prime := by
  have h : Certifies field 256 7 [2, 2, 2, 2, 2, 2, 3, 149, 631, 107361793816595537,
      174723607534414371449, 341948486974166000522343609283189] := by
    decide +kernel
  apply h.prime
  have hsmall : ∀ q ∈ [2, 3, 149, 631], q.Prime := by norm_num
  simpa [prime_107361793816595537, prime_174723607534414371449,
    prime_341948486974166000522343609283189] using hsmall

end JudicaVM
