import Mathlib.Data.List.Prime
import Mathlib.NumberTheory.LucasPrimality

/-!
# Certificates of primality

The test of Lucas with a given base and given prime factors, evaluated by square and multiply.
-/

namespace PrimeCertificate

/-- `acc * b ^ e % m`, one bit of the exponent at a time. -/
def powMod (m : ℕ) : ℕ → ℕ → ℕ → ℕ → ℕ
  | 0, _, _, acc => acc
  | bits + 1, b, e, acc => powMod m bits (b * b % m) (e / 2) (if e % 2 = 1 then acc * b % m else acc)

theorem cast_powMod {m bits b e acc : ℕ} (he : e < 2 ^ bits) :
    (powMod m bits b e acc : ZMod m) = acc * (b : ZMod m) ^ e := by
  induction bits generalizing b e acc with
  | zero =>
    have he0 : e = 0 := by simpa using he
    simp [powMod, he0]
  | succ bits ih =>
    have hhalf : e / 2 < 2 ^ bits := by
      rw [pow_succ] at he
      omega
    have hsquare : ((b * b % m : ℕ) : ZMod m) = (b : ZMod m) ^ 2 := by
      rw [ZMod.natCast_mod, Nat.cast_mul, sq]
    rw [powMod, ih hhalf, hsquare, ← pow_mul]
    split_ifs with hodd
    · have hexp : e = 2 * (e / 2) + 1 := by omega
      rw [ZMod.natCast_mod, Nat.cast_mul, mul_assoc, ← pow_succ']
      exact congrArg _ (congrArg _ hexp.symm)
    · have hexp : 2 * (e / 2) = e := by omega
      rw [hexp]

/-- A base and the prime factors of the predecessor certify a prime. -/
def Certifies (p bits base : ℕ) (factors : List ℕ) : Prop :=
  1 < p ∧ factors.prod = p - 1 ∧ p - 1 < 2 ^ bits ∧ powMod p bits base (p - 1) 1 % p = 1 ∧
    ∀ q ∈ factors, powMod p bits base ((p - 1) / q) 1 % p ≠ 1

instance (p bits base : ℕ) (factors : List ℕ) : Decidable (Certifies p bits base factors) :=
  inferInstanceAs (Decidable (_ ∧ _ ∧ _ ∧ _ ∧ ∀ q ∈ factors, _))

theorem Certifies.prime {p bits base : ℕ} {factors : List ℕ} (h : Certifies p bits base factors)
    (hfactors : ∀ q ∈ factors, q.Prime) : p.Prime := by
  obtain ⟨hp, hprod, hbits, hone, hne⟩ := h
  have hpow : ∀ e ≤ p - 1, (base : ZMod p) ^ e = 1 ↔ powMod p bits base e 1 % p = 1 := by
    intro e he
    have hcast : ((powMod p bits base e 1 : ℕ) : ZMod p) = (1 : ℕ) * (base : ZMod p) ^ e :=
      cast_powMod (he.trans_lt hbits)
    rw [Nat.cast_one, one_mul] at hcast
    have hiff := ZMod.natCast_eq_natCast_iff' (powMod p bits base e 1) 1 p
    rwa [hcast, Nat.cast_one, Nat.mod_eq_of_lt hp] at hiff
  apply lucas_primality p base
  · exact (hpow _ le_rfl).mpr hone
  · intro q hq hdvd heq
    rw [← hprod] at hdvd
    -- a prime divisor of a product of primes is one of them
    have hmem := (Prime.dvd_prod_iff hq.prime).mp hdvd
    obtain ⟨q', hq', hdvd'⟩ := hmem
    rw [(Nat.prime_dvd_prime_iff_eq hq (hfactors q' hq')).mp hdvd'] at heq
    exact hne q' hq' ((hpow _ (Nat.div_le_self _ _)).mp heq)

end PrimeCertificate
