import Mathlib.Algebra.Module.Basic
import Mathlib.Data.Int.GCD
import Mathlib.GroupTheory.OrderOfElement
import Mathlib.Tactic.Abel
import Mathlib.Tactic.Module

/-!
# Schnorr signatures with one nonce

Two signatures that share their nonce point but not their challenge determine the discrete
logarithm of the key; with one challenge they are the same signature.
-/

namespace Schnorr

variable {G : Type*} [AddCommGroup G] {g R P : G} {n e e' s s' : ℕ} {i : ℤ}

/-- The equation that a signature `s` of a message with challenge `e` satisfies. -/
def Signs (g R P : G) (e s : ℕ) : Prop :=
  s • g = R + e • P

theorem Signs.sub (h : Signs g R P e s) (h' : Signs g R P e' s') :
    ((s : ℤ) - s') • g = ((e : ℤ) - e') • P := by
  unfold Signs at h h'
  rw [sub_smul, sub_smul, natCast_zsmul, natCast_zsmul, natCast_zsmul, natCast_zsmul, h, h']
  abel

theorem zsmul_eq_of_emod (hn : ∀ x : G, n • x = 0) {a b : ℤ} (h : a % n = b % n) (x : G) :
    a • x = b • x := by
  obtain ⟨c, hc⟩ := Int.ModEq.dvd h
  have hb : b = a + n * c := by omega
  rw [hb, add_smul, mul_comm, mul_smul, natCast_zsmul, hn, smul_zero, add_zero]

/-- Dividing the difference of the signatures by that of the challenges gives the logarithm. -/
theorem Signs.extract (hn : ∀ x : G, n • x = 0) (h : Signs g R P e s) (h' : Signs g R P e' s')
    (hi : i * ((e : ℤ) - e') % n = 1 % n) : (i * ((s : ℤ) - s') % n) • g = P := by
  have hresult : (i * ((s : ℤ) - s') % n) • g = (i * ((s : ℤ) - s')) • g :=
    zsmul_eq_of_emod hn (Int.emod_emod_of_dvd _ (dvd_refl _)) g
  calc (i * ((s : ℤ) - s') % n) • g = i • (((s : ℤ) - s') • g) := by rw [hresult, mul_smul]
    _ = (i * ((e : ℤ) - e')) • P := by rw [h.sub h', mul_smul]
    _ = (1 : ℤ) • P := zsmul_eq_of_emod hn hi P
    _ = P := one_smul ℤ P

/-- A signature with a given nonce and a given challenge is unique. -/
theorem Signs.unique (hn : ∀ x : G, n • x = 0) (hprime : n.Prime) (hg : g ≠ 0)
    (h : Signs g R P e s) (h' : Signs g R P e' s') (he : e % n = e' % n) (hs : s < n)
    (hs' : s' < n) : s = s' := by
  have hfact : Fact n.Prime := ⟨hprime⟩
  have horder : addOrderOf g = n := addOrderOf_eq_prime (hn g) hg
  have hchallenge : (e : ℤ) • P = (e' : ℤ) • P := by
    apply zsmul_eq_of_emod hn
    exact_mod_cast he
  have hsame : s • g = s' • g := by
    unfold Signs at h h'
    rw [h, h', ← natCast_zsmul P e, ← natCast_zsmul P e', hchallenge]
  have hmod := nsmul_eq_nsmul_iff_modEq.mp hsame
  rw [horder] at hmod
  exact Nat.ModEq.eq_of_lt_of_lt hmod hs hs'

/-- Challenges that differ modulo the prime order have an inverse difference. -/
theorem inverse_of_bezout (hprime : n.Prime) {d x : ℤ} (hd : ¬(n : ℤ) ∣ d)
    (hx : ∃ y, d * x + n * y = Int.gcd d n) : x * d % n = 1 % n := by
  obtain ⟨y, hy⟩ := hx
  have hcoprime : Int.gcd d n = 1 := by
    have hdvd := (Nat.dvd_prime hprime).mp (Int.gcd_dvd_right d n |> Int.natCast_dvd_natCast.mp)
    apply hdvd.resolve_right
    intro heq
    apply hd
    rw [← heq]
    exact Int.gcd_dvd_left d n
  rw [hcoprime] at hy
  have hxd : x * d = 1 + n * -y := by
    rw [Nat.cast_one] at hy
    rw [mul_comm x d, mul_neg, ← sub_eq_add_neg, eq_sub_iff_add_eq]
    exact hy
  rw [hxd, Int.add_mul_emod_self_left]

end Schnorr
